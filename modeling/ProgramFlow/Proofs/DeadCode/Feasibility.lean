import ProgramFlow.DeadCode
import ProgramFlow.Proofs.Constants.Soundness
/-!
The nodes that dead code detection reaches are closed under feasible edges, and the edge that a run
takes is feasible: a constant in a fact of the solution is what the variable holds.
-/
namespace ProgramFlow

open Machine

theorem Operator.applyValues_eq_constant {op : Operator} {x y : Value} {c : Int32}
    (h : op.applyValues x y = .constant c) :
    ∃ a b, x = .constant a ∧ y = .constant b ∧ op.apply a b = some c := by
  unfold applyValues at h
  split at h
  · cases h
  · cases x with
    | undef => cases y <;> cases h
    | nac => cases h
    | constant a =>
      cases y with
      | undef => cases h
      | nac => cases h
      | constant b =>
        cases h
        exact ⟨a, b, rfl, rfl, (Option.some_get _).symm⟩

/-- Control may go an edge of this kind when the fact holds: a decided branch goes one way, and a
decided switch goes to the cases of its value or, if there are none, to the default. -/
def Instr.admits (i : Instr) (f : Fact) (kind : EdgeKind) : Bool :=
  match i with
  | .branch cond _ =>
    match f.evaluate cond with
    | .constant c => kind = if c = 0 then .ifFalse else .ifTrue
    | _ => true
  | .switch v cases _ =>
    match f.get v with
    | .constant c => kind = if c ∈ cases.map Prod.fst then .switchCase c else .switchDefault
    | _ => true
  | _ => true

/-- The ways of a switch for a value are its cases for it. -/
theorem MethodDecl.filter_switchCase (d : MethodDecl) (k : Nat) (v : VarId)
    (cases : List (Int32 × Nat)) (otherwise : Nat) (c : Int32) :
    (d.ways k (.switch v cases otherwise)).filter (·.1 = .switchCase c) =
      (cases.filter (·.1 = c)).map fun x => (.switchCase x.1, x.2) := by
  simp [ways, List.filter_map, Function.comp_def]

namespace Program

variable {p : Program}

/-- Only variables of integer type have a value. -/
def IntsOnly (p : Program) (f : Fact) : Prop := ∀ v, f.get v ≠ .undef → p.isIntVar v = .ok true

/-- The greatest of the facts about variables of integer type. -/
def greatestFact (p : Program) : Fact :=
  .ofList ((((List.range p.vars.size).map Id.mk).filter (p.isIntVar · = .ok true)).map
    fun v => (v, .nac))

theorem get_greatestFact (p : Program) (v : VarId) :
    p.greatestFact.get v = if p.isIntVar v = .ok true then .nac else .undef := by
  have hmem : v ∈ ((List.range p.vars.size).map Id.mk).filter (p.isIntVar · = .ok true) ↔
      p.isIntVar v = .ok true := by
    rw [List.mem_filter, decide_eq_true_eq]
    apply and_iff_right_of_imp
    intro hv
    exact List.mem_map.2 ⟨v.index, List.mem_range.2 (index_lt_of_isIntVar hv), rfl⟩
  rw [greatestFact, Fact.get_ofList_map]
  exact if_congr hmem rfl rfl

theorem intsOnly_of_le {f : Fact} (h : f ≤ p.greatestFact) : p.IntsOnly f := by
  intro v hv
  by_contra hint
  have hle := Fact.le_iff.1 h v
  rw [get_greatestFact, if_neg hint] at hle
  exact hv (le_antisymm hle (Value.undef_le _))

theorem isIntVar_of_assignment? {s : StmtId} {i : Instr} {f : Fact} {v : VarId} {x : Value}
    (h : p.assignment? s i f = .ok (some (v, x))) : p.isIntVar v = .ok true := by
  unfold assignment? at h
  cases hlhs : i.assigned? with
  | none =>
    rw [hlhs] at h
    cases h
  | some w =>
    rw [hlhs] at h
    obtain ⟨b, hb, h⟩ := Outcome.bind_eq_ok.1 h
    cases b with
    | false => cases h
    | true =>
      suffices hw : w = v by rw [← hw, hb]
      cases i with
      | literal lhs value =>
        cases value <;> cases h <;> rfl
      | _ =>
        cases h
        try rfl

theorem constantTransfer_le_greatestFact {s : StmtId} {f g : Fact}
    (h : p.constantTransfer s f = .ok g) (hf : f ≤ p.greatestFact) : g ≤ p.greatestFact := by
  obtain ⟨i, -, h⟩ := Outcome.bind_eq_ok.1 h
  obtain ⟨a, ha, h⟩ := Outcome.bind_eq_ok.1 h
  cases h
  cases a with
  | none => exact hf
  | some e =>
    obtain ⟨v, x⟩ := e
    apply Fact.le_iff.2
    intro w
    rw [Fact.assign, Fact.get_set]
    split
    · next hw =>
      rw [hw, get_greatestFact, if_pos (isIntVar_of_assignment? ha)]
      exact Value.le_nac x
    · exact Fact.le_iff.1 hf w

variable {m : MethodId} {d : MethodDecl} {g : ControlFlowGraph} {schedule : Dataflow.Schedule}
  {t : Dataflow.Table Fact}

/-- The facts that constant propagation finds mention no other variables. -/
theorem Layout.intsOnly_of_solve_eq_ok (hl : p.Layout) (hg : p.controlFlow m = .ok g)
    (ht : p.constantPropagation.solve g schedule = .ok t) {n : StmtId} {f : Fact}
    (hf : t.arriving.find? n = some f) : p.IntsOnly f := by
  have hmono := hl.monotonic_of_solve_eq_ok hg ht
  obtain ⟨d, hd, rfl, -, -, hnodes, hclosed⟩ := hl.of_controlFlow hg
  let y : Dataflow.Facts Fact := ⟨fun _ => p.greatestFact, fun _ => p.greatestFact⟩
  have hbounds : (p.constantPropagation.system g).Bounds y := by
    intro n hn
    constructor
    · apply (Dataflow.isLUB_join _).2
      intro x hx
      obtain ⟨s, -, rfl⟩ := List.mem_map.1 hx
      exact le_rfl
    · simp only [Dataflow.Problem.system, constantPropagation, y]
      cases h : p.constantTransfer n p.greatestFact with
      | error e => exact bot_le
      | ok f => exact constantTransfer_le_greatestFact h le_rfl
  have hboundary : ∀ b, p.parameterFact g.method = .ok b → b ≤ p.greatestFact := by
    intro b hb
    apply Fact.le_iff.2
    intro v
    rw [get_parameterFact hd hb, get_greatestFact]
    split
    · next hv => rw [if_pos hv.2]
    · exact Value.undef_le _
  have hle := hmono.solve_le hclosed (hnodes ▸ d.nodup_nodes) ht hbounds hboundary
  apply intsOnly_of_le
  have harr := hle.1 n
  simp only [Dataflow.Table.facts, hf, Option.getD_some] at harr
  exact harr

section Feasible

variable {A : Arithmetic} {f : Fact} {ρ : Env}

/-- A constant in the fact is what the variable holds. -/
theorem Describes.eq_int (h : p.Describes f ρ) (hf : p.IntsOnly f) {v : VarId} {c : Int32}
    (hv : f.get v = .constant c) (hρ : ρ v ≠ none) : ρ v = some (.int c) := by
  obtain ⟨x, hx⟩ := Option.ne_none_iff_exists'.1 hρ
  have hcovers := h v x (hf v (by rw [hv]; exact Value.noConfusion)) hx
  rw [hv] at hcovers
  rw [hx, hcovers]

/-- A condition with a constant value comes to that value. -/
theorem Describes.holds_eq (h : p.Describes f ρ) (hf : p.IntsOnly f) {cond : BinaryExpr} {c : Int32}
    (hc : f.evaluate cond = .constant c) (hl : ρ cond.left ≠ none) (hr : ρ cond.right ≠ none) :
    A.holds ρ cond = decide (c ≠ 0) := by
  obtain ⟨a, b, ha, hb, hab⟩ := Operator.applyValues_eq_constant hc
  rw [Arithmetic.holds, h.eq_int hf ha hl, h.eq_int hf hb hr]
  simp [Arithmetic.combine, A.operate_int, hab]

variable (hg : p.controlFlow m = .ok g) (hd : p.method m = .ok d) {k : Nat} (hk : k < d.length)
  {i : Instr} (hi : p.instr (d.stmtAt k) = .ok i)
include hg hd hk hi

theorem filter_outEdges (P : EdgeKind → Bool) : (g.outEdges (d.stmtAt k)).filter (P ·.kind) =
    ((d.ways k i).filter (P ·.1)).map fun w => ⟨w.1, d.stmtAt k, d.point w.2⟩ := by
  rw [outEdges_stmtAt hg hd hk hi, List.filter_map]
  rfl

/-- The feasible edges are those that the fact admits. -/
theorem feasibleEdges_stmtAt (f : Fact) : feasibleEdges i f (g.outEdges (d.stmtAt k)) =
    (g.outEdges (d.stmtAt k)).filter fun e => i.admits f e.kind := by
  cases i with
  | branch cond target =>
    cases hc : f.evaluate cond <;> simp [feasibleEdges, Instr.admits, hc]
  | switch v cases otherwise =>
    cases hc : f.get v with
    | constant c =>
      have hcases : (g.outEdges (d.stmtAt k)).filter (·.kind = .switchCase c) = [] ↔
          c ∉ cases.map Prod.fst := by
        rw [filter_outEdges hg hd hk hi (· = .switchCase c), MethodDecl.filter_switchCase,
          List.map_eq_nil_iff, List.map_eq_nil_iff, List.filter_eq_nil_iff, List.mem_map]
        grind
      simp only [feasibleEdges, Instr.admits, hc]
      split
      · next h => simp only [hcases.1 h, if_false]
      · next h => simp only [not_not.1 (mt hcases.2 h), if_true]
    | _ => simp [feasibleEdges, Instr.admits, hc]
  | _ => exact (List.filter_true _).symm

omit hg hd hk hi in
/-- The fact admits the way that control takes. -/
theorem Describes.admits_exitKind (h : p.Describes f ρ) (hf : p.IntsOnly f)
    (hread : ∀ v ∈ i.uses, ρ v ≠ none) : i.admits f (A.exitKind d ρ k i) = true := by
  cases i with
  | branch cond target =>
    cases hc : f.evaluate cond with
    | constant c =>
      have hholds := h.holds_eq (A := A) hf hc (hread _ (.head _)) (hread _ (.tail _ (.head _)))
      by_cases h0 : c = 0 <;> simp [Instr.admits, Arithmetic.exitKind, hc, hholds, h0]
    | _ => simp [Instr.admits, hc]
  | switch v cases otherwise =>
    cases hc : f.get v with
    | constant c =>
      have hcase : Arithmetic.case? ρ v cases = cases.find? (·.1 = c) := by
        rw [Arithmetic.case?, h.eq_int hf hc (hread _ (.head _))]
      cases hfind : cases.find? (·.1 = c) with
      | none =>
        have hnot : c ∉ cases.map Prod.fst := by
          intro hmem
          obtain ⟨x, hx, rfl⟩ := List.mem_map.1 hmem
          exact List.find?_eq_none.1 hfind x hx (decide_eq_true rfl)
        simp [Instr.admits, Arithmetic.exitKind, hc, hcase, hfind, hnot]
      | some x =>
        have hx : x.1 = c := by simpa using List.find?_some hfind
        have hmem : c ∈ cases.map Prod.fst :=
          hx ▸ List.mem_map_of_mem (List.mem_of_find?_eq_some hfind)
        simp [Instr.admits, Arithmetic.exitKind, hc, hcase, hfind, hmem, hx]
    | _ => simp [Instr.admits, hc]
  | _ => rfl

/-- The edge that control takes is feasible. -/
theorem Describes.mem_feasibleEdges (h : p.Describes f ρ) (hf : p.IntsOnly f)
    (hread : ∀ v ∈ i.uses, ρ v ≠ none) :
    ⟨A.exitKind d ρ k i, d.stmtAt k, d.point (A.next d ρ k i)⟩ ∈
      feasibleEdges i f (g.outEdges (d.stmtAt k)) := by
  rw [feasibleEdges_stmtAt hg hd hk hi, List.mem_filter]
  exact ⟨mem_outEdges_next hg hd hk hi A ρ, h.admits_exitKind hf hread⟩

end Feasible

section Decided

variable (hg : p.controlFlow m = .ok g) (hd : p.method m = .ok d) {k : Nat} (hk : k < d.length)
  {f : Fact} {c : Int32}
include hg hd hk

/-- A decided branch keeps the edge it takes. -/
theorem feasibleEdges_branch {cond : BinaryExpr} {t : Nat}
    (hi : p.instr (d.stmtAt k) = .ok (.branch cond t)) (hc : f.evaluate cond = .constant c) :
    feasibleEdges (.branch cond t) f (g.outEdges (d.stmtAt k)) =
      [if c = 0 then ⟨.ifFalse, d.stmtAt k, d.point (k + 1)⟩
        else ⟨.ifTrue, d.stmtAt k, d.point t⟩] := by
  rw [feasibleEdges_stmtAt hg hd hk hi, outEdges_stmtAt hg hd hk hi]
  simp only [Instr.admits, hc]
  by_cases h : c = 0 <;> simp [MethodDecl.ways, h]

/-- A decided switch keeps the cases of its value, or else the default. -/
theorem feasibleEdges_switch {v : VarId} {cases : List (Int32 × Nat)} {otherwise : Nat}
    (hi : p.instr (d.stmtAt k) = .ok (.switch v cases otherwise)) (hc : f.get v = .constant c) :
    feasibleEdges (.switch v cases otherwise) f (g.outEdges (d.stmtAt k)) =
      if c ∈ cases.map Prod.fst then
        (cases.filter (·.1 = c)).map fun x => ⟨.switchCase c, d.stmtAt k, d.point x.2⟩
      else [⟨.switchDefault, d.stmtAt k, d.point otherwise⟩] := by
  rw [feasibleEdges_stmtAt hg hd hk hi]
  simp only [Instr.admits, hc]
  split
  · rw [filter_outEdges hg hd hk hi (· = .switchCase c), MethodDecl.filter_switchCase, List.map_map]
    refine List.map_congr_left fun x hx => ?_
    have hx : x.1 = c := of_decide_eq_true (List.mem_filter.1 hx).2
    simp [hx]
  · rw [filter_outEdges hg hd hk hi (· = .switchDefault)]
    simp [MethodDecl.ways, List.filter_map, Function.comp_def]

end Decided

section Reached

variable {e : Evidence}

/-- What holds between two steps of a walk: the feasible successors of a reached node have been
reached, unless the node is still to be looked at. -/
structure Reaching (p : Program) (e : Evidence) (w : NodeWalk) : Prop where
  entry : e.graph.entry ∈ w.reached
  succs : ∀ n ∈ w.reached, n ∈ w.queue ∨
    ∃ l, p.feasibleSuccs e n = .ok l ∧ ∀ s ∈ l, s ∈ w.reached

theorem Reaching.step {w : NodeWalk} (h : p.Reaching e w) :
    (p.reachStep e w).Satisfies (p.Reaching e)
      (fun r => ∀ l, r = .ok l → p.Reaching e ⟨l, []⟩) := by
  obtain ⟨reached, queue⟩ := w
  cases queue with
  | nil =>
    intro l hl
    cases hl
    exact h
  | cons n queue =>
    simp only [reachStep]
    split
    · intro l hl
      cases hl
    · next succs hsuccs =>
      refine ⟨List.mem_append_left _ h.entry, fun m hm => ?_⟩
      rcases List.mem_append.1 hm with hm | hm
      · rcases h.succs m hm with hq | ⟨l, hl, hreached⟩
        · rcases List.mem_cons.1 hq with rfl | hq
          · right
            refine ⟨succs, hsuccs, fun s hs => ?_⟩
            rw [List.mem_append, List.mem_filter, List.mem_eraseDups, decide_eq_true_eq]
            by_cases hs' : s ∈ reached
            · exact .inl hs'
            · exact .inr ⟨hs, hs'⟩
          · exact .inl (List.mem_append_left _ hq)
        · exact .inr ⟨l, hl, fun s hs => List.mem_append_left _ (hreached s hs)⟩
      · exact .inl (List.mem_append_right _ hm)

/-- The reached nodes contain the entry and are closed under feasible edges. -/
theorem reaching_of_reachedNodes {reached : List StmtId} (h : p.reachedNodes e = .ok reached) :
    p.Reaching e ⟨reached, []⟩ := by
  have hstart : p.Reaching e ⟨[e.graph.entry], [e.graph.entry]⟩ :=
    ⟨.head _, fun _ hn => .inl hn⟩
  unfold reachedNodes at h
  split at h
  · next r hr => exact Progress.of_iterate hr (fun _ hw => hw.step) hstart reached h
  · cases h

theorem mem_reached_of_mem_feasibleEdges {reached : List StmtId}
    (h : p.reachedNodes e = .ok reached) {n : StmtId} (hn : n ∈ reached) {i : Instr}
    (hi : p.instr n = .ok i) {edge : Edge}
    (hedge : edge ∈ feasibleEdges i (e.factAt n) (e.graph.outEdges n)) : edge.target ∈ reached := by
  rcases (reaching_of_reachedNodes h).succs n hn with hq | ⟨l, hl, hreached⟩
  · cases hq
  · obtain ⟨i', hi', hl⟩ := Outcome.bind_eq_ok.1 hl
    cases hi.symm.trans hi'
    cases hl
    exact hreached _ (List.mem_map_of_mem hedge)

end Reached

end Program

end ProgramFlow
