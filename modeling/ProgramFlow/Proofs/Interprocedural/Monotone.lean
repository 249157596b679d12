import ProgramFlow.Proofs.Dataflow.Analyses
import ProgramFlow.Proofs.Interprocedural.Constants
/-!
All transfers are monotone: when the facts that an analysis reads rise, so does what it computes from
them. Whether a transfer fails, and how, does not depend on the facts.
-/
namespace ProgramFlow

/-- Two computations that fail alike, or succeed with related answers. -/
inductive Outcome.Related {α β : Type} (R : α → β → Prop) : Outcome α → Outcome β → Prop
  | ok {a b} (h : R a b) : Related R (.ok a) (.ok b)
  | error (e : AnalysisError) : Related R (.error e) (.error e)

namespace Outcome.Related

variable {α β γ δ : Type} {R : α → β → Prop} {S : γ → δ → Prop}

theorem bind {x : Outcome α} {y : Outcome β} (h : Related R x y) {f : α → Outcome γ}
    {f' : β → Outcome δ} (hf : ∀ a b, R a b → Related S (f a) (f' b)) :
    Related S (x >>= f) (y >>= f') := by
  cases h with
  | ok h => exact hf _ _ h
  | error e => exact .error e

theorem bind_same (x : Outcome α) {f : α → Outcome γ} {f' : α → Outcome δ}
    (hf : ∀ a, Related S (f a) (f' a)) : Related S (x >>= f) (x >>= f') := by
  cases x with
  | ok a => exact hf a
  | error e => exact .error e

theorem map_same (x : Outcome α) {f : α → γ} {f' : α → δ} (hf : ∀ a, S (f a) (f' a)) :
    Related S (f <$> x) (f' <$> x) := by
  cases x with
  | ok a => exact .ok (hf a)
  | error e => exact .error e

theorem foldlM {ι : Type} {step : α → ι → Outcome α} {step' : β → ι → Outcome β}
    (h : ∀ i a b, R a b → Related R (step a i) (step' b i)) (l : List ι) {a : α} {b : β}
    (hab : R a b) : Related R (l.foldlM step a) (l.foldlM step' b) := by
  induction l generalizing a b with
  | nil => exact .ok hab
  | cons i l ih =>
    rw [List.foldlM_cons, List.foldlM_cons]
    exact (h i a b hab).bind fun _ _ => ih

end Outcome.Related

open Outcome (Related)

/-- Assignments of one variable, or none, the first of a value that is not above the other's. -/
def Fact.AssignsBelow : Option (VarId × Value) → Option (VarId × Value) → Prop :=
  Option.Rel fun a b => a.1 = b.1 ∧ a.2 ≤ b.2

theorem Fact.AssignsBelow.assign {a b : Option (VarId × Value)} (h : AssignsBelow a b) {f g : Fact}
    (hle : f ≤ g) : f.assign a ≤ g.assign b := by
  cases h with
  | none => exact hle
  | @some x y hxy =>
    obtain ⟨v, x⟩ := x
    obtain ⟨w, y⟩ := y
    obtain ⟨rfl, hval⟩ := hxy
    exact Fact.set_mono hle hval v

/-- The same nodes have facts in both maps, and those of the first are not above the other's. -/
def Interprocedural.ArrivalsBelow (A B : SortedMap StmtId Fact) : Prop :=
  ∀ n, Option.Rel (· ≤ ·) (A.find? n) (B.find? n)

namespace Program

variable (p : Program) {f g : Fact} (h : f ≤ g)
include h

theorem assignment?_related (s : StmtId) (i : Instr) :
    Related Fact.AssignsBelow (p.assignment? s i f) (p.assignment? s i g) := by
  unfold assignment?
  cases i.assigned? with
  | none => exact .ok .none
  | some v =>
    apply Related.bind_same
    intro b
    cases b with
    | false => exact .ok .none
    | true =>
      have hsome : ∀ {x y : Value}, x ≤ y → Related Fact.AssignsBelow
          (.ok (some (v, x)) : Outcome _) (.ok (some (v, y))) := fun hxy =>
        .ok (.some ⟨rfl, hxy⟩)
      cases i with
      | literal lhs value =>
        cases value with
        | int c => exact hsome le_rfl
        | _ => exact hsome le_rfl
      | copy lhs rhs => exact hsome (Fact.get_mono rhs h)
      | binary lhs exp => exact hsome (Fact.evaluate_mono exp h)
      | neg lhs operand => exact hsome (Value.mapConstant_mono _ (Fact.get_mono operand h))
      | unknown tag lhs reads => exact .error _
      | _ => exact hsome le_rfl

theorem constantTransfer_related (s : StmtId) :
    Related (· ≤ ·) (p.constantTransfer s f) (p.constantTransfer s g) := by
  apply Related.bind_same
  intro i
  apply (p.assignment?_related h s i).bind
  intro a b hab
  exact .ok (hab.assign h)

end Program

namespace Interprocedural

variable (p : Program) {f g : Fact} (h : f ≤ g)
include h

theorem passArguments_related (args params : List VarId) :
    Related (· ≤ ·) (passArguments p args params f) (passArguments p args params g) := by
  apply Related.foldlM _ _ le_rfl
  intro e k k' hk
  apply Related.bind_same
  intro b
  cases b with
  | false => exact .ok hk
  | true => exact .ok (Fact.set_mono hk (Fact.get_mono e.1 h) e.2)

theorem foldl_merge_mono (vars : List VarId) {x y : Value} (hxy : x ≤ y) :
    vars.foldl (fun x w => x.merge (f.get w)) x ≤ vars.foldl (fun x w => x.merge (g.get w)) y := by
  induction vars generalizing x y with
  | nil => exact hxy
  | cons w vars ih => exact ih (Value.merge_mono hxy (Fact.get_mono w h))

theorem passResult_related (returns : List VarId) (result : Option VarId) :
    Related (· ≤ ·) (passResult p returns result f) (passResult p returns result g) := by
  cases result with
  | none => exact .ok le_rfl
  | some v =>
    apply Related.bind_same
    intro b
    cases b with
    | false => exact .ok le_rfl
    | true => exact .ok (Fact.set_mono le_rfl (foldl_merge_mono h returns le_rfl) v)

theorem passCall_related (site : StmtId) :
    Related (· ≤ ·) (passCall p site f) (passCall p site g) := by
  apply Related.bind_same
  intro i
  cases i.assigned? with
  | none => exact .ok h
  | some v => exact .ok (Fact.set_mono h le_rfl v)

theorem transferLink_related (l : Link) :
    Related (· ≤ ·) (transferLink p l f) (transferLink p l g) := by
  unfold transferLink
  cases l.kind with
  | normal => exact .ok h
  | callToReturn => exact passCall_related p h l.source
  | call callee args params => exact passArguments_related p h args params
  | ret site callee returns result => exact passResult_related p h returns result

theorem transferPlain_related (n : StmtId) (i : Instr) :
    Related (· ≤ ·) (transferPlain p n i f) (transferPlain p n i g) := by
  apply (p.assignment?_related h n i).bind
  intro a b hab
  exact .ok (hab.assign h)

variable {A B : SortedMap StmtId Fact} (hA : ArrivalsBelow A B)
include hA

/-- The value that a load merges rises with its own fact and with the facts of the stores, also when
an element that a store writes becomes one that the load may read. -/
theorem loadValue_related (al : Aliases) (n : StmtId) (load : Instr) :
    Related (· ≤ ·) (loadValue p al A n load f) (loadValue p al B n load g) := by
  apply Related.foldlM _ _ le_rfl
  intro s x y hxy
  have hs := hA s
  generalize A.find? s = k at hs
  generalize B.find? s = k' at hs
  cases hs with
  | none => exact .ok hxy
  | @some k k' hk =>
    apply Related.bind_same
    intro store
    cases storedVar? store with
    | none => exact .ok hxy
    | some rhs =>
      apply Related.ok
      dsimp only
      by_cases hmatch : indicesMayMatch load store f k = true
      · rw [if_pos hmatch, if_pos (indicesMayMatch_mono h hk hmatch)]
        exact Value.merge_mono hxy (Fact.get_mono rhs hk)
      · rw [if_neg hmatch]
        split
        · exact hxy.trans (Value.le_merge_left _ _)
        · exact hxy

theorem transferNode_related (a : Option Aliases) (n : StmtId) :
    Related (· ≤ ·) (transferNode p a A n f) (transferNode p a B n g) := by
  apply Related.bind_same
  intro i
  cases i.isInvoke with
  | true => exact .ok h
  | false =>
    cases a with
    | none => exact transferPlain_related p h n i
    | some al =>
      cases loadedVar? i with
      | none => exact transferPlain_related p h n i
      | some lhs =>
        apply Related.bind_same
        intro b
        cases b with
        | false => exact transferPlain_related p h n i
        | true =>
          apply (loadValue_related p h hA al n i).bind
          intro x y hxy
          exact .ok (Fact.set_mono h hxy lhs)

end Interprocedural

namespace Program

variable (p : Program)

theorem liveVariables_related {x y : LiveSet} (h : x ≤ y) (s : StmtId) :
    Related (· ≤ ·) (p.liveVariables.transfer s x) (p.liveVariables.transfer s y) :=
  .map_same _ fun i => i.liveBefore_mono h

/-- What the analyses compute from facts does not fall when the facts rise: the value of an
expression, the assignment of a statement, the facts behind a statement in one method, those that a
link carries and those behind a node of a supergraph, with or without aliases, the value that a load
merges, and the live variables before a statement. -/
structure Isotone : Prop where
  evaluate : ∀ f g : Fact, f ≤ g → ∀ exp, f.evaluate exp ≤ g.evaluate exp
  assignment : ∀ f g, f ≤ g → ∀ s i,
    Related Fact.AssignsBelow (p.assignment? s i f) (p.assignment? s i g)
  statement : ∀ f g, f ≤ g → ∀ s,
    Related (· ≤ ·) (p.constantPropagation.transfer s f) (p.constantPropagation.transfer s g)
  link : ∀ a f g, f ≤ g → ∀ l, Related (· ≤ ·)
    ((Interprocedural.constantPropagation p a).transferLink l f)
    ((Interprocedural.constantPropagation p a).transferLink l g)
  load : ∀ al f g A B, f ≤ g → Interprocedural.ArrivalsBelow A B → ∀ n i, Related (· ≤ ·)
    (Interprocedural.loadValue p al A n i f) (Interprocedural.loadValue p al B n i g)
  node : ∀ a f g A B, f ≤ g → Interprocedural.ArrivalsBelow A B → ∀ n, Related (· ≤ ·)
    ((Interprocedural.constantPropagation p a).transferNode A n f)
    ((Interprocedural.constantPropagation p a).transferNode B n g)
  live : ∀ x y, x ≤ y → ∀ s,
    Related (· ≤ ·) (p.liveVariables.transfer s x) (p.liveVariables.transfer s y)

theorem isotone : p.Isotone where
  evaluate := fun _ _ h exp => Fact.evaluate_mono exp h
  assignment := fun _ _ h => p.assignment?_related h
  statement := fun _ _ h => p.constantTransfer_related h
  link := fun _ _ _ h => Interprocedural.transferLink_related p h
  load := fun al _ _ _ _ h hA => Interprocedural.loadValue_related p h hA al
  node := fun a _ _ _ _ h hA => Interprocedural.transferNode_related p h hA a
  live := fun _ _ h => p.liveVariables_related h

end Program

end ProgramFlow
