import ProgramFlow.Constants.Propagation
import ProgramFlow.Proofs.Constants.Order
import ProgramFlow.Proofs.Dataflow.WorkList
import ProgramFlow.Proofs.Program.Layout
/-!
The assignments of constant propagation are monotone, and only an unknown instruction that assigns
an integer variable fails.
-/
namespace ProgramFlow

theorem Operator.applyValues_mono (op : Operator) {x x' y y' : Value} (hx : x ≤ x') (hy : y ≤ y') :
    op.applyValues x y ≤ op.applyValues x' y' := by
  rw [Value.le_def] at hx hy ⊢
  cases x <;> cases x' <;> cases y <;> cases y' <;> grind [applyValues, Value.merge]

namespace Fact

theorem evaluate_mono (exp : BinaryExpr) : Monotone (evaluate · exp) := fun _ _ h =>
  exp.op.applyValues_mono (get_mono _ h) (get_mono _ h)

/-- The facts of a program with `n` variables. -/
def height (n : Nat) : Dataflow.Height Fact where
  Within := Within n
  rank := rank n
  bound := 2 * n
  rank_le := fun _ => rank_le n _
  rank_lt := rank_lt_rank

/-- An assignment of a declared variable, or none, whatever the fact. -/
def Assigns (n : Nat) (a : Fact → Option (VarId × Value)) : Prop :=
  (∀ f, a f = none) ∨ ∃ v x, v.index < n ∧ Monotone x ∧ ∀ f, a f = some (v, x f)

variable {n : Nat} {a : Fact → Option (VarId × Value)}

theorem Assigns.assign_mono (h : Assigns n a) : Monotone fun f : Fact => f.assign (a f) := by
  intro f g hle
  rcases h with h | ⟨v, x, -, hx, h⟩
  · simpa only [h, assign] using hle
  · simpa only [h, assign] using set_mono hle (hx hle) v

theorem Assigns.within (h : Assigns n a) {f : Fact} (hf : f.Within n) :
    (f.assign (a f)).Within n := by
  rcases h with h | ⟨v, x, hv, -, h⟩
  · rwa [h]
  · rw [h]
    exact hf.set hv _

theorem Within.foldl_set {l : List (VarId × Value)} (hl : ∀ e ∈ l, e.1.index < n) {f : Fact}
    (hf : f.Within n) : (l.foldl (fun f e => f.set e.1 e.2) f).Within n := by
  induction l generalizing f with
  | nil => exact hf
  | cons e l ih =>
    rw [List.foldl_cons]
    exact ih (fun x hx => hl x (.tail _ hx)) (hf.set (hl e (.head _)) e.2)

theorem within_ofList {l : List (VarId × Value)} (hl : ∀ e ∈ l, e.1.index < n) :
    (ofList l).Within n :=
  (within_bot n).foldl_set hl

end Fact

namespace Program

variable {p : Program}

/-- The statement is an unknown instruction that assigns a variable of integer type. -/
def Unsupported (p : Program) (s : StmtId) (tag : String) : Prop :=
  ∃ v reads, p.instr s = .ok (.unknown tag (some v) reads) ∧ p.isIntVar v = .ok true

theorem sample_supported {s : StmtId} (hs : s ≠ ⟨6⟩) (tag : String) :
    ¬ sample.Unsupported s tag := by
  rintro ⟨v, reads, hi, -⟩
  obtain ⟨x, hx, hi⟩ := instr_eq_ok.1 hi
  obtain ⟨hlt, hx⟩ := Array.getElem?_eq_some_iff.1 (fetch_eq_ok_iff.1 hx)
  have hall : ∀ i : Fin 16, i ≠ 6 → (match (sample.stmts[i]).instr with
      | .unknown .. => false
      | _ => true) = true := by decide
  have hmatch := hall ⟨s.index, hlt⟩ fun he => hs (Id.ext (congrArg Fin.val he))
  subst hx
  simp only [Fin.getElem_fin] at hmatch
  rw [hi] at hmatch
  cases hmatch

theorem index_lt_of_isIntVar {v : VarId} {b : Bool} (h : p.isIntVar v = .ok b) :
    v.index < p.vars.size := by
  obtain ⟨x, hx, -⟩ := Outcome.map_eq_ok.1 h
  exact (Array.getElem?_eq_some_iff.1 (fetch_eq_ok_iff.1 hx)).1

theorem Declared.isIntVar (h : p.Declared) {s : StmtId} {i : Instr} (hi : p.instr s = .ok i)
    {v : VarId} (hv : v ∈ i.uses ∨ i.assigned? = some v) : ∃ b, p.isIntVar v = .ok b := by
  obtain ⟨x, hx⟩ := h s i hi v hv
  exact ⟨_, Outcome.map_eq_ok.2 ⟨x, hx, rfl⟩⟩

theorem assignment?_eq_error {s : StmtId} {tag : String} {v : VarId} {reads : List VarId}
    (hv : p.isIntVar v = .ok true) (f : Fact) :
    p.assignment? s (.unknown tag (some v) reads) f =
      .error (.unsupportedConstruct .constants s tag) := by
  simp [assignment?, Instr.assigned?, hv]

theorem assignment?_eq_ok {s : StmtId} {i : Instr} (hi : p.instr s = .ok i)
    (h : ∀ v, i.assigned? = some v → ∃ b, p.isIntVar v = .ok b)
    (hs : ∀ tag, ¬ p.Unsupported s tag) :
    ∃ a, (∀ f, p.assignment? s i f = .ok (a f)) ∧ Fact.Assigns p.vars.size a := by
  cases hv : i.assigned? with
  | none => exact ⟨fun _ => none, fun f => by simp [assignment?, hv], .inl fun _ => rfl⟩
  | some v =>
    obtain ⟨b, hb⟩ := h v hv
    cases b with
    | false => exact ⟨fun _ => none, fun f => by simp [assignment?, hv, hb], .inl fun _ => rfl⟩
    | true =>
      have hsome : ∀ x : Fact → Value, Monotone x →
          Fact.Assigns p.vars.size fun f => some (v, x f) := fun x hx =>
        .inr ⟨v, x, index_lt_of_isIntVar hb, hx, fun _ => rfl⟩
      have hconst : ∀ x : Value, Fact.Assigns p.vars.size fun _ => some (v, x) := fun x =>
        hsome _ monotone_const
      cases i with
      | literal lhs value =>
        cases value with
        | int c => exact ⟨_, fun f => by simp [assignment?, hv, hb], hconst (.constant c)⟩
        | _ => exact ⟨_, fun f => by simp [assignment?, hv, hb], hconst .nac⟩
      | copy lhs rhs =>
        exact ⟨_, fun f => by simp [assignment?, hv, hb], hsome _ (Fact.get_mono rhs)⟩
      | binary lhs exp =>
        exact ⟨_, fun f => by simp [assignment?, hv, hb], hsome _ (Fact.evaluate_mono exp)⟩
      | neg lhs operand =>
        exact ⟨_, fun f => by simp [assignment?, hv, hb],
          hsome _ ((Value.mapConstant_mono (- ·)).comp (Fact.get_mono operand))⟩
      | unknown tag lhs reads =>
        cases hv
        exact absurd ⟨v, reads, hi, hb⟩ (hs tag)
      | _ => exact ⟨_, fun f => by simp [assignment?, hv, hb], hconst .nac⟩

theorem Declared.assignment?_eq_ok (h : p.Declared) {s : StmtId} {i : Instr}
    (hi : p.instr s = .ok i) (hs : ∀ tag, ¬ p.Unsupported s tag) :
    ∃ a, (∀ f, p.assignment? s i f = .ok (a f)) ∧ Fact.Assigns p.vars.size a :=
  Program.assignment?_eq_ok hi (fun _ hv => h.isIntVar hi (.inr hv)) hs

theorem constantTransfer_eq_ok {s : StmtId} {i : Instr} (hi : p.instr s = .ok i)
    (h : ∀ v, i.assigned? = some v → ∃ b, p.isIntVar v = .ok b)
    (hs : ∀ tag, ¬ p.Unsupported s tag) :
    ∃ t : Fact → Fact, (∀ f, p.constantTransfer s f = .ok (t f)) ∧ Monotone t ∧
      ∀ f, f.Within p.vars.size → (t f).Within p.vars.size := by
  obtain ⟨a, ha, hassigns⟩ := assignment?_eq_ok hi h hs
  exact ⟨fun f => f.assign (a f), fun f => by simp [constantTransfer, hi, ha],
    hassigns.assign_mono, fun f hf => hassigns.within hf⟩

theorem Declared.constantTransfer_eq_ok (h : p.Declared) {s : StmtId} {i : Instr}
    (hi : p.instr s = .ok i) (hs : ∀ tag, ¬ p.Unsupported s tag) :
    ∃ t : Fact → Fact, (∀ f, p.constantTransfer s f = .ok (t f)) ∧ Monotone t ∧
      ∀ f, f.Within p.vars.size → (t f).Within p.vars.size :=
  Program.constantTransfer_eq_ok hi (fun _ hv => h.isIntVar hi (.inr hv)) hs

theorem Unsupported.constantTransfer_eq_error {s : StmtId} {tag : String}
    (h : p.Unsupported s tag) (f : Fact) :
    p.constantTransfer s f = .error (.unsupportedConstruct .constants s tag) := by
  obtain ⟨v, reads, hi, hv⟩ := h
  simp [constantTransfer, hi, assignment?_eq_error hv]

theorem Layout.parameterFact_eq_ok (h : p.Layout) {m : MethodId} {d : MethodDecl}
    (hd : p.method m = .ok d) :
    ∃ b, p.parameterFact m = .ok b ∧ b.Within p.vars.size := by
  have hvar : ∀ v ∈ d.params, ∃ b, p.isIntVar v = .ok b := by
    intro v hv
    obtain ⟨x, hx, -⟩ := h.params hd hv
    exact ⟨_, Outcome.map_eq_ok.2 ⟨x, hx, rfl⟩⟩
  choose! isInt hisInt using hvar
  have hfilter : d.params.filterM p.isIntVar = .ok (d.params.filter isInt) :=
    Outcome.filterM_eq_ok.2 ⟨isInt, hisInt, rfl⟩
  refine ⟨.ofList ((d.params.filter isInt).map fun v => (v, .nac)), ?_, ?_⟩
  · simp [parameterFact, hd, hfilter]
  · apply Fact.within_ofList
    intro e he
    obtain ⟨v, hv, rfl⟩ := List.mem_map.1 he
    exact index_lt_of_isIntVar (hisInt v (List.mem_filter.1 hv).1)

end Program

end ProgramFlow
