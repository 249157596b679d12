import ProgramFlow.Proofs.Program.Validation
/-!
Where the statements and variables of a method stand in the tables of a program that a builder has
made.
-/
namespace ProgramFlow

namespace Builder

theorem mem_foldl_returns {code : List Instr} {v : VarId} (vs : List VarId) :
    v ∈ code.foldl
      (fun vs i =>
        match i with
        | .ret (some v) => if v ∈ vs then vs else vs ++ [v]
        | _ => vs) vs ↔ v ∈ vs ∨ .ret (some v) ∈ code := by
  induction code generalizing vs with
  | nil => simp
  | cons i code ih =>
    rw [List.foldl_cons, ih, List.mem_cons]
    split
    · next w =>
      split
      · grind
      · simp only [List.mem_append, List.mem_singleton, Instr.ret.injEq, Option.some.injEq]
        grind
    · next h => grind

theorem mem_returnsOf {code : List Instr} {v : VarId} :
    v ∈ returnsOf code ↔ .ret (some v) ∈ code :=
  (mem_foldl_returns []).trans (by simp)

end Builder

namespace Program

/-- The statement stands in the body of the method. -/
def Contains (p : Program) (m : MethodId) (s : StmtId) (i : Instr) : Prop :=
  ∃ d, p.method m = .ok d ∧ s ∈ d.body ∧ p.instr s = .ok i

/-- The tables of a built program fit together. -/
structure Layout (p : Program) : Prop where
  entry : ∀ {m d}, p.method m = .ok d → p.stmt d.entry = .ok ⟨m, none, .entry⟩
  exit : ∀ {m d}, p.method m = .ok d → p.stmt d.exit = .ok ⟨m, none, .exit⟩
  body : ∀ {m d i}, p.method m = .ok d → i < d.length →
    ∃ instr, p.stmt (d.stmtAt i) = .ok ⟨m, some i, instr⟩ ∧ ∀ t ∈ instr.targets, t < d.length
  housed : ∀ {s x}, p.stmt s = .ok x → ∃ d, p.method x.method = .ok d ∧
    (s = d.entry ∨ s ∈ d.body ∨ s = d.exit)
  params : ∀ {m d v}, p.method m = .ok d → v ∈ d.params → ∃ x, p.var v = .ok x ∧ x.method = m
  receiver : ∀ {m d v}, p.method m = .ok d → d.receiver = some v →
    ∃ x, p.var v = .ok x ∧ x.method = m
  returns : ∀ {m d v}, p.method m = .ok d →
    (v ∈ d.returns ↔ ∃ s ∈ d.body, p.instr s = .ok (.ret (some v)))

end Program

/-- The statements of a method, from its entry to its exit. -/
def MethodDecl.nodes (m : MethodDecl) : List StmtId := m.entry :: m.body ++ [m.exit]

theorem MethodDecl.mem_nodes {m : MethodDecl} {s : StmtId} :
    s ∈ m.nodes ↔ s = m.entry ∨ s ∈ m.body ∨ s = m.exit := by
  simp [nodes]

theorem MethodDecl.mem_span {d : MethodDecl} {s : Nat} (hlo : d.first ≤ s)
    (hhi : s < d.first + d.length + 2) :
    (⟨s⟩ : StmtId) = d.entry ∨ ⟨s⟩ ∈ d.body ∨ ⟨s⟩ = d.exit := by
  rcases Nat.eq_or_lt_of_le hlo with rfl | hlt
  · exact .inl rfl
  rcases Nat.lt_or_ge s (d.first + d.length + 1) with hs | hs
  · refine .inr (.inl (MethodDecl.mem_body.2 ⟨s - d.first - 1, by omega, ?_⟩))
    ext
    simp only [stmtAt]
    omega
  · refine .inr (.inr ?_)
    ext
    simp only [exit]
    omega

/-- What `build` has checked. -/
theorem Builder.build_eq_ok {b : Builder} {p : Program} (h : b.build = .ok p) :
    (∀ draft ∈ b.methods.toList, b.checkMethod draft = .ok ()) ∧
    (∀ x ∈ b.stmts.toList, b.checkAnchor x = .ok ()) ∧
    p = { classes := b.classes, fields := b.fields, methods := b.methods.map (·.decl),
          vars := b.vars, stmts := b.stmts, main := b.main } := by
  obtain ⟨⟨⟩, hm, h⟩ := Outcome.bind_eq_ok.1 h
  obtain ⟨⟨⟩, hs, h⟩ := Outcome.bind_eq_ok.1 h
  exact ⟨Outcome.forM_eq_ok.1 hm, Outcome.forM_eq_ok.1 hs, (Except.ok.inj h).symm⟩

theorem Builder.Placed.mem_returns {b : Builder} {m : MethodId} {d : MethodDecl} (h : b.Placed m d)
    {v : VarId} : v ∈ d.returns ↔
      ∃ i < d.length, b.stmts[(d.stmtAt i).index]? = some ⟨m, some i, .ret (some v)⟩ := by
  obtain ⟨code, hl, hr, hs⟩ := h
  have hbody : ∀ i (hi : i < code.length),
      b.stmts[(d.stmtAt i).index]? = some ⟨m, some i, code[i]⟩ := by
    intro i hi
    have hbody := (hs (i + 1) (by omega)).trans (segment_body m (List.getElem?_eq_getElem hi))
    rwa [Nat.add_comm i 1, ← Nat.add_assoc] at hbody
  rw [hr, mem_returnsOf, List.mem_iff_getElem]
  constructor
  · rintro ⟨i, hi, he⟩
    exact ⟨i, by omega, he ▸ hbody i hi⟩
  · rintro ⟨i, hi, he⟩
    rw [hl] at hi
    rw [hbody i hi] at he
    exact ⟨i, hi, by simpa using he⟩

theorem Program.Built.layout {p : Program} (h : p.Built) : p.Layout := by
  obtain ⟨b, hb, hp⟩ := h
  have ho := hb.orderly
  obtain ⟨hm, -, rfl⟩ := Builder.build_eq_ok hp
  have hdraft : ∀ {m : MethodId} {d : MethodDecl}, fetch (b.methods.map (·.decl)) m = .ok d →
      ∃ draft, b.methods[m.index]? = some draft ∧ draft.decl = d ∧
        b.checkMethod draft = .ok () := by
    intro m d hd
    rw [fetch_eq_ok_iff, Array.getElem?_map, Option.map_eq_some_iff] at hd
    obtain ⟨draft, hd, rfl⟩ := hd
    exact ⟨draft, hd, rfl, hm draft (Array.mem_toList_iff.2 (Array.mem_of_getElem? hd))⟩
  constructor
  · intro m d hd
    obtain ⟨draft, hi, rfl, hc⟩ := hdraft hd
    exact fetch_eq_ok_iff.2 (ho.checkMethod_eq_ok hi hc).1.stmts.1
  · intro m d hd
    obtain ⟨draft, hi, rfl, hc⟩ := hdraft hd
    exact fetch_eq_ok_iff.2 (ho.checkMethod_eq_ok hi hc).1.stmts.2.1
  · intro m d i hd hlt
    obtain ⟨draft, hi, rfl, hc⟩ := hdraft hd
    obtain ⟨hplaced, htargets⟩ := ho.checkMethod_eq_ok hi hc
    obtain ⟨instr, hs⟩ := hplaced.stmts.2.2 i hlt
    exact ⟨instr, fetch_eq_ok_iff.2 hs, htargets i hlt _ hs⟩
  · intro s x hs
    obtain ⟨draft, hd, hf, hlo, hhi⟩ := ho.housed (fetch_eq_ok_iff.1 hs)
    refine ⟨draft.decl, fetch_eq_ok_iff.2 ?_, ?_⟩
    · rw [Array.getElem?_map, hd]
      rfl
    · exact MethodDecl.mem_span hlo hhi
  · intro m d v hd hv
    obtain ⟨draft, hi, rfl, hc⟩ := hdraft hd
    obtain ⟨x, hx, hm⟩ := ho.params hi hv
    exact ⟨x, fetch_eq_ok_iff.2 hx, hm⟩
  · intro m d v hd hv
    obtain ⟨draft, hi, rfl, hc⟩ := hdraft hd
    obtain ⟨x, hx, hm⟩ := ho.receiver hi hv
    exact ⟨x, fetch_eq_ok_iff.2 hx, hm⟩
  · intro m d v hd
    obtain ⟨draft, hi, rfl, hc⟩ := hdraft hd
    have hplaced := (ho.checkMethod_eq_ok hi hc).1
    rw [hplaced.mem_returns]
    constructor
    · rintro ⟨i, hi, hs⟩
      exact ⟨_, MethodDecl.mem_body.2 ⟨i, hi, rfl⟩,
        Outcome.map_eq_ok.2 ⟨_, fetch_eq_ok_iff.2 hs, rfl⟩⟩
    · rintro ⟨s, hs, he⟩
      obtain ⟨i, hlt, rfl⟩ := MethodDecl.mem_body.1 hs
      obtain ⟨x, hx, hr⟩ := Outcome.map_eq_ok.1 he
      obtain ⟨instr, hstmt⟩ := hplaced.stmts.2.2 i hlt
      cases hstmt.symm.trans (fetch_eq_ok_iff.1 hx)
      cases hr
      exact ⟨i, hlt, hstmt⟩

namespace Program

variable {p : Program}

/-- The statements mention declared variables only. -/
def Declared (p : Program) : Prop :=
  ∀ s i, p.instr s = .ok i → ∀ v, v ∈ i.uses ∨ i.assigned? = some v → ∃ x, p.var v = .ok x

/-- The statements mention variables of their own methods only. -/
def Scoped (p : Program) : Prop :=
  ∀ s x, p.stmt s = .ok x → ∀ v, v ∈ x.instr.uses ∨ x.instr.assigned? = some v →
    ∃ y, p.var v = .ok y ∧ y.method = x.method

theorem Scoped.declared (h : p.Scoped) : p.Declared := by
  intro s i hi v hv
  obtain ⟨x, hx, rfl⟩ := Outcome.map_eq_ok.1 hi
  obtain ⟨y, hy, -⟩ := h s x hx v hv
  exact ⟨y, hy⟩

theorem scoped_iff : p.Scoped ↔ ∀ x ∈ p.stmts.toList,
    ∀ v ∈ x.instr.uses ++ x.instr.assigned?.toList, p.vars[v.index]?.any (·.method = x.method) := by
  constructor
  · intro h x hx v hv
    obtain ⟨i, hi⟩ := List.getElem?_of_mem hx
    rw [List.mem_append, Option.mem_toList] at hv
    obtain ⟨y, hy, hm⟩ := h ⟨i⟩ x (fetch_eq_ok_iff.2 (by simpa using hi)) v hv
    simp [fetch_eq_ok_iff.1 hy, hm]
  · intro h s x hs v hv
    have hx := Array.mem_toList_iff.2 (Array.mem_of_getElem? (fetch_eq_ok_iff.1 hs))
    have hv := h x hx v (by simpa using hv)
    obtain ⟨y, hy, hm⟩ := (Option.any_eq_true _ _).1 hv
    exact ⟨y, fetch_eq_ok_iff.2 hy, by simpa using hm⟩

instance : Decidable p.Scoped := decidable_of_iff _ scoped_iff.symm

theorem instr_eq_ok {s : StmtId} {i : Instr} :
    p.instr s = .ok i ↔ ∃ x, p.stmt s = .ok x ∧ x.instr = i :=
  Outcome.map_eq_ok

theorem forall_instr {P : StmtId → Instr → Prop} :
    (∀ s i, p.instr s = .ok i → P s i) ↔ ∀ x ∈ p.numbered, P x.1 x.2.instr := by
  constructor
  · intro h x hx
    exact h x.1 x.2.instr (instr_eq_ok.2 ⟨x.2, p.mem_numbered.1 hx, rfl⟩)
  · intro h s i hi
    obtain ⟨x, hx, rfl⟩ := instr_eq_ok.1 hi
    exact h (s, x) (p.mem_numbered.2 hx)

theorem Layout.stmt_of_mem_body (h : p.Layout) {m : MethodId} {d : MethodDecl} {s : StmtId}
    (hd : p.method m = .ok d) (hs : s ∈ d.body) : ∃ x, p.stmt s = .ok x ∧ x.method = m := by
  obtain ⟨i, hi, rfl⟩ := MethodDecl.mem_body.1 hs
  obtain ⟨instr, hx, -⟩ := h.body hd hi
  exact ⟨_, hx, rfl⟩

theorem Layout.stmt_of_mem (h : p.Layout) {m : MethodId} {d : MethodDecl} {s : StmtId}
    (hd : p.method m = .ok d) (hs : s ∈ d.nodes) :
    ∃ x, p.stmt s = .ok x ∧ x.method = m := by
  rcases MethodDecl.mem_nodes.1 hs with rfl | hs | rfl
  · exact ⟨_, h.entry hd, rfl⟩
  · exact h.stmt_of_mem_body hd hs
  · exact ⟨_, h.exit hd, rfl⟩

/-- No statement belongs to two methods. -/
theorem Layout.method_unique (h : p.Layout) {m m' : MethodId} {d d' : MethodDecl} {s : StmtId}
    (hd : p.method m = .ok d) (hd' : p.method m' = .ok d')
    (hs : s ∈ d.nodes) (hs' : s ∈ d'.nodes) :
    m = m' := by
  obtain ⟨x, hx, rfl⟩ := h.stmt_of_mem hd hs
  obtain ⟨y, hy, rfl⟩ := h.stmt_of_mem hd' hs'
  cases hx.symm.trans hy
  rfl

/-- An instruction that is not an end of a method stands in a body. -/
theorem Layout.contains_of_mem (h : p.Layout) {m : MethodId} {d : MethodDecl} {s : StmtId}
    (hd : p.method m = .ok d) (hs : s ∈ d.nodes) {i : Instr} (hi : p.instr s = .ok i)
    (hend : i.isEnd = false) : p.Contains m s i := by
  obtain ⟨x, hx, rfl⟩ := instr_eq_ok.1 hi
  rcases MethodDecl.mem_nodes.1 hs with rfl | hs | rfl
  · cases hx.symm.trans (h.entry hd)
    cases hend
  · exact ⟨d, hd, hs, hi⟩
  · cases hx.symm.trans (h.exit hd)
    cases hend

theorem Layout.contains (h : p.Layout) {s : StmtId} {i : Instr} (hi : p.instr s = .ok i)
    (hend : i.isEnd = false) : ∃ m, p.Contains m s i := by
  obtain ⟨x, hx, -⟩ := instr_eq_ok.1 hi
  obtain ⟨d, hd, hs⟩ := h.housed hx
  exact ⟨x.method, h.contains_of_mem hd (MethodDecl.mem_nodes.2 hs) hi hend⟩

theorem Contains.unique (hl : p.Layout) {m m' : MethodId} {s : StmtId} {i i' : Instr}
    (h : p.Contains m s i) (h' : p.Contains m' s i') : m = m' := by
  obtain ⟨d, hd, hs, -⟩ := h
  obtain ⟨d', hd', hs', -⟩ := h'
  exact hl.method_unique hd hd' (MethodDecl.mem_nodes.2 (.inr (.inl hs)))
    (MethodDecl.mem_nodes.2 (.inr (.inl hs')))

theorem Contains.method_eq (hl : p.Layout) {m : MethodId} {s : StmtId} {i : Instr}
    (h : p.Contains m s i) {x : Stmt} (hx : p.stmt s = .ok x) : m = x.method := by
  obtain ⟨d, hd, hb, -⟩ := h
  obtain ⟨x', hx', rfl⟩ := hl.stmt_of_mem_body hd hb
  cases hx.symm.trans hx'
  rfl

/-- The statements of a method mention variables of this method. -/
theorem Contains.own (hl : p.Layout) (hs : p.Scoped) {m : MethodId} {s : StmtId} {i : Instr}
    (h : p.Contains m s i) {v : VarId} (hv : v ∈ i.uses ∨ i.assigned? = some v) :
    ∃ y, p.var v = .ok y ∧ y.method = m := by
  obtain ⟨d, hd, hb, hi⟩ := h
  obtain ⟨x, hx, rfl⟩ := instr_eq_ok.1 hi
  obtain ⟨x', hx', rfl⟩ := hl.stmt_of_mem_body hd hb
  cases hx.symm.trans hx'
  exact hs s x hx v hv

/-- A cell whose value is stored, read through a call and compared in a loop, and a method that no
analysis understands. -/
def sample : Program where
  classes := #[⟨"Cell", none, false, [("get", ⟨0⟩), ("odd", ⟨1⟩), ("main", ⟨2⟩)]⟩]
  fields := #[⟨"value", ⟨0⟩, .int, false⟩]
  methods := #[
    ⟨"get", ⟨0⟩, false, false, [], some ⟨0⟩, [⟨1⟩], 0, 2⟩,
    ⟨"odd", ⟨0⟩, true, false, [], none, [], 4, 2⟩,
    ⟨"main", ⟨0⟩, true, false, [], none, [], 8, 6⟩]
  vars := #[
    ⟨"this", .object ⟨0⟩, ⟨0⟩⟩, ⟨"r", .int, ⟨0⟩⟩,
    ⟨"z", .int, ⟨1⟩⟩,
    ⟨"c", .object ⟨0⟩, ⟨2⟩⟩, ⟨"x", .int, ⟨2⟩⟩, ⟨"y", .int, ⟨2⟩⟩]
  stmts := #[
    ⟨⟨0⟩, none, .entry⟩,
    ⟨⟨0⟩, some 0, .loadField ⟨1⟩ (.instance ⟨0⟩ ⟨0⟩)⟩,
    ⟨⟨0⟩, some 1, .ret (some ⟨1⟩)⟩,
    ⟨⟨0⟩, none, .exit⟩,
    ⟨⟨1⟩, none, .entry⟩,
    ⟨⟨1⟩, some 0, .nop⟩,
    ⟨⟨1⟩, some 1, .unknown "dynamic" (some ⟨2⟩) []⟩,
    ⟨⟨1⟩, none, .exit⟩,
    ⟨⟨2⟩, none, .entry⟩,
    ⟨⟨2⟩, some 0, .new ⟨3⟩ (.object ⟨0⟩)⟩,
    ⟨⟨2⟩, some 1, .literal ⟨4⟩ (.int 1)⟩,
    ⟨⟨2⟩, some 2, .storeField (.instance ⟨3⟩ ⟨0⟩) ⟨4⟩⟩,
    ⟨⟨2⟩, some 3, .invoke ⟨some ⟨5⟩, .virtual, ⟨⟨0⟩, "get"⟩, some ⟨3⟩, []⟩⟩,
    ⟨⟨2⟩, some 4, .branch ⟨.lt, ⟨5⟩, ⟨4⟩⟩ 1⟩,
    ⟨⟨2⟩, some 5, .ret none⟩,
    ⟨⟨2⟩, none, .exit⟩]
  main := some ⟨2⟩

open MethodBuilder in
theorem sample_built : sample.Built := by
  have hfields := (Builder.Assembled.empty.addClass "Cell" none).addField ⟨0⟩ "value" .int false
  have hget := hfields.finish ⟨0⟩ "get" false rfl
    (((Edits.refl.addLocal "r" .int).push (.loadField ⟨1⟩ (.instance ⟨0⟩ ⟨0⟩))).push
      (.ret (some ⟨1⟩)))
  have hodd := hget.finish ⟨0⟩ "odd" true rfl
    (((Edits.refl.addLocal "z" .int).push .nop).push (.unknown "dynamic" (some ⟨2⟩) []))
  have hmain := hodd.finish ⟨0⟩ "main" true rfl
    (((((((((Edits.refl.addLocal "c" (.object ⟨0⟩)).addLocal "x" .int).addLocal "y" .int).push
      (.new ⟨3⟩ (.object ⟨0⟩))).push (.literal ⟨4⟩ (.int 1))).push
      (.storeField (.instance ⟨3⟩ ⟨0⟩) ⟨4⟩)).push
      (.invoke ⟨some ⟨5⟩, .virtual, ⟨⟨0⟩, "get"⟩, some ⟨3⟩, []⟩)).push
      (.branch ⟨.lt, ⟨5⟩, ⟨4⟩⟩ 1)).push (.ret none))
  exact ⟨_, hmain.setMain ⟨2⟩, by decide +kernel⟩

theorem sample_scoped : sample.Scoped := by decide

end Program

end ProgramFlow
