import ProgramFlow.Proofs.Constants.Soundness
import ProgramFlow.Proofs.Graph.Linkage
import ProgramFlow.Proofs.Interprocedural.Constants
import ProgramFlow.Proofs.Program.Activations
import ProgramFlow.Proofs.Program.Variables
/-!
Interprocedural constant propagation describes every run through the methods of a program: the
facts at the statement of an activation stand for what its variables hold, for the latest
activation and for all that wait.
-/
namespace ProgramFlow.Interprocedural

open Machine

variable {p : Program} {g : Supergraph} {a : Option Aliases} {t : Dataflow.Table Fact}

/-- A solver that succeeds has met no unsupported statement. -/
theorem supported_of_solve_eq_ok (hl : p.Layout) (hv : p.Declared) (hg : g.Closed p)
    (ha : ∀ al, a = some al → al.Fits p g) (ht : (constantPropagation p a).solve g = .ok t) :
    ∀ n ∈ g.nodes, ∀ tag, ¬ p.Unsupported n tag := by
  intro n hn tag hun
  obtain ⟨l, n, l', hnodes, hnot, hl'⟩ := exists_first (P := fun n => ∀ tag, ¬ p.Unsupported n tag)
    ⟨n, hn, fun hall => hall tag hun⟩
  obtain ⟨tag, hun⟩ := not_forall.1 hnot
  cases ht.symm.trans (solve_eq_unsupported hl hv hg ha hnodes hl' (not_not.1 hun))

theorem solves_of_solve_eq_ok (hl : p.Layout) (hv : p.Declared) (hg : g.Closed p)
    (ha : ∀ al, a = some al → al.Fits p g) (ht : (constantPropagation p a).solve g = .ok t) :
    (constantPropagation p a).Solves g t := by
  have hmono := constantPropagation_monotonic hl hv hg ha (supported_of_solve_eq_ok hl hv hg ha ht)
  obtain ⟨u, hu, hleast⟩ := hmono.solve_eq_ok hl hg
  cases ht.symm.trans hu
  exact hleast.1

/-- A node that calls nothing assigns what the statement does, or what a load merges. -/
theorem transferNode_cases (hv : p.Declared) {arriving : SortedMap StmtId Fact} {n : StmtId}
    {i : Instr} {f y : Fact} (hi : p.instr n = .ok i) (hcall : i.isInvoke = false)
    (h : transferNode p a arriving n f = .ok y) :
    (∃ as, p.assignment? n i f = .ok as ∧ y = f.assign as) ∨
      ∃ al lhs v, a = some al ∧ loadedVar? i = some lhs ∧ p.isIntVar lhs = .ok true ∧
        y = f.set lhs v := by
  by_cases hload : ∃ al lhs, a = some al ∧ loadedVar? i = some lhs ∧ p.isIntVar lhs = .ok true
  · obtain ⟨al, lhs, rfl, hl, hv⟩ := hload
    simp only [transferNode, hi, Outcome.ok_bind, hcall, Bool.false_eq_true, if_false, hl, hv,
      if_true] at h
    obtain ⟨v, -, h⟩ := Outcome.bind_eq_ok.1 h
    exact .inr ⟨al, lhs, v, rfl, hl, hv, (Except.ok.inj h).symm⟩
  · rw [transferNode_plain hi hcall] at h
    · obtain ⟨as, has, h⟩ := Outcome.bind_eq_ok.1 h
      exact .inl ⟨as, has, (Except.ok.inj h).symm⟩
    · intro al lhs ha hl
      obtain ⟨b, hb⟩ := hv.isIntVar hi (.inr (assigned?_of_loadedVar? hl))
      cases b with
      | false => exact hb
      | true => exact absurd ⟨al, lhs, ha, hl, hb⟩ hload

theorem foldlM_set_get {args params : List VarId} (hparams : params.Nodup) {f k k' : Fact}
    (h : (args.zip params).foldlM (fun g (arg, param) => do
      return if ← p.isIntVar param then g.set param (f.get arg) else g) k = .ok k') {v : VarId}
    (hv : p.isIntVar v = .ok true) :
    (∀ w, (w, v) ∈ args.zip params → k'.get v = f.get w) ∧ (v ∉ params → k'.get v = k.get v) := by
  induction args generalizing params k with
  | nil =>
    cases h
    simp
  | cons arg args ih =>
    cases params with
    | nil =>
      cases h
      simp
    | cons param params =>
      rw [List.nodup_cons] at hparams
      obtain ⟨k₁, hk₁, h⟩ := Outcome.bind_eq_ok.1 h
      obtain ⟨b, hb, hk₁⟩ := Outcome.bind_eq_ok.1 hk₁
      cases hk₁
      obtain ⟨hmem, hnot⟩ := ih hparams.2 h
      constructor
      · intro w hw
        rcases List.mem_cons.1 hw with he | hw
        · cases he
          cases hv.symm.trans hb
          rw [hnot hparams.1, if_pos rfl, Fact.get_set, if_pos rfl]
        · exact hmem w hw
      · intro hv'
        rw [List.mem_cons, not_or] at hv'
        rw [hnot hv'.2]
        split
        · rw [Fact.get_set, if_neg hv'.1]
        · rfl

theorem passArguments_get {args params : List VarId} (hparams : params.Nodup) {f k : Fact}
    (h : passArguments p args params f = .ok k) {w v : VarId} (hmem : (w, v) ∈ args.zip params)
    (hv : p.isIntVar v = .ok true) : k.get v = f.get w :=
  (foldlM_set_get hparams h hv).1 w hmem

/-- The merged value of the returned variables includes that of each. -/
theorem passResult_get {returns : List VarId} {v : VarId} {f k : Fact}
    (h : passResult p returns (some v) f = .ok k) (hv : p.isIntVar v = .ok true) {w : VarId}
    (hw : w ∈ returns) : f.get w ≤ k.get v := by
  simp only [passResult, hv, Outcome.ok_bind, if_true, Outcome.pure_eq, Except.ok.injEq] at h
  rw [← h, Fact.get_set, if_pos rfl]
  have hjoin : returns.foldl (fun x w => x.merge (f.get w)) .undef =
      Dataflow.join (returns.map f.get) :=
    List.foldl_map.symm
  rw [hjoin]
  exact (Dataflow.isLUB_join _).1 (List.mem_map_of_mem hw)

/-- Where a call returns, the caller's variables come past the call and the result is merged from
the returned variables. -/
theorem describes_assign_result {n : StmtId} {call : Call} (hi : p.instr n = .ok (.invoke call))
    {returns : List VarId} {z k y k' b : Fact} (hk : passCall p n z = .ok k) (hle : k ≤ b)
    (hk' : passResult p returns call.lhs y = .ok k') (hle' : k' ≤ b) {ρ : Env}
    (hdesc : p.Describes z ρ) {x : Option Datum}
    (hx : ∀ v u, call.lhs = some v → p.isIntVar v = .ok true → x = some u →
      ∃ r ∈ returns, (y.get r).Covers u) : p.Describes b (ρ.assign call.lhs x) := by
  simp only [passCall, hi, Outcome.ok_bind, Instr.assigned?, Outcome.pure_eq,
    Except.ok.injEq] at hk
  cases hlhs : call.lhs with
  | none =>
    simp only [hlhs] at hk
    subst hk
    exact hdesc.mono hle
  | some v =>
    simp only [hlhs] at hk hk'
    subst hk
    intro w u hw hu
    rw [Env.assign_some] at hu
    split at hu
    · next heq =>
      subst heq
      obtain ⟨r, hr, hcover⟩ := hx w u hlhs hw hu
      exact (hcover.mono (passResult_get hk' hw hr)).mono (Fact.get_mono w hle')
    · next hne =>
      have hkept : ((z.set v .undef).get w).Covers u := by
        rw [Fact.get_set, if_neg hne]
        exact hdesc w u hw hu
      exact hkept.mono (Fact.get_mono w hle)

/-- A statement that assigns nothing, and a call, pass on what arrives at them. -/
theorem transferNode_idle {n : StmtId} {i : Instr} (hi : p.instr n = .ok i)
    (h : i.isInvoke = true ∨ i.assigned? = none) (arriving : SortedMap StmtId Fact) (f : Fact) :
    transferNode p a arriving n f = .ok f := by
  cases hcall : i.isInvoke with
  | true => simp [transferNode, hi, hcall]
  | false =>
    have hassigned : i.assigned? = none := h.resolve_left (by simp [hcall])
    rw [transferNode_plain hi hcall]
    · simp [transferPlain, Program.assignment?, hassigned, Fact.assign]
    · intro al lhs _ hl
      rw [assigned?_of_loadedVar? hl] at hassigned
      cases hassigned

/-- A solution over the supergraph of a built program. -/
structure Solution (p : Program) (g : Supergraph) (calls : List (StmtId × MethodId))
    (a : Option Aliases) (t : Dataflow.Table Fact) : Prop where
  built : p.Built
  declared : p.Declared
  closed : g.Closed p
  linked : g.Linked p calls
  solves : (constantPropagation p a).Solves g t

theorem Solution.of_solve_eq_ok {entries : List MethodId} {calls : List (StmtId × MethodId)}
    (hp : p.Built) (hs : p.Scoped) (hg : p.supergraph entries calls = .ok g)
    (ha : ∀ al, a = some al → al.Fits p g) (ht : (constantPropagation p a).solve g = .ok t) :
    Solution p g calls a t where
  built := hp
  declared := hs.declared
  closed := hp.layout.supergraph_closed hg
  linked := Program.supergraph_linked hg
  solves := solves_of_solve_eq_ok hp.layout hs.declared (hp.layout.supergraph_closed hg) ha ht

namespace Solution

variable {calls : List (StmtId × MethodId)} (h : Solution p g calls a t) {m : MethodId}
  {d : MethodDecl} {A : Arithmetic} {ρ : Env}

section Method

include h

theorem leaving_of_idle {n : StmtId} (hn : n ∈ g.nodes) (hb : n ∉ Problem.boundaryNodes g)
    {i : Instr} (hi : p.instr n = .ok i) (hidle : i.isInvoke = true ∨ i.assigned? = none) {x : Fact}
    (hx : t.arriving.find? n = some x) : t.leaving.find? n = some x := by
  obtain ⟨x', y, hx', hy, hleave⟩ := h.solves.leaving n hn hb
  cases hx.symm.trans hx'
  cases (transferNode_idle hi hidle t.arriving x).symm.trans hy
  exact hleave

variable (hm : m ∈ g.methods) (hd : p.method m = .ok d)
include hm hd

theorem exists_graph : ∃ c ∈ g.graphs, p.controlFlow m = .ok c ∧ c.method = m ∧
    c.entry = d.entry ∧ c.nodes = d.nodes := by
  obtain ⟨c, hc, rfl⟩ := List.mem_map.1 hm
  have hcf := h.linked.graphs c hc
  obtain ⟨d', hd', -, hentry, -, hnodes, -⟩ := h.built.layout.of_controlFlow hcf
  cases hd.symm.trans hd'
  exact ⟨c, hc, hcf, rfl, hentry, hnodes⟩

theorem mem_nodes {n : StmtId} (hn : n ∈ d.nodes) : n ∈ g.nodes := by
  obtain ⟨c, hc, -, -, -, hnodes⟩ := h.exists_graph hm hd
  exact Supergraph.mem_nodes.2 ⟨c, hc, hnodes ▸ hn⟩

/-- The graph of a boundary node among the nodes of a method is that of the method. -/
theorem entry_of_mem_boundaryNodes {n : StmtId} (hn : n ∈ d.nodes)
    (hb : n ∈ Problem.boundaryNodes g) : n = d.entry ∧ m ∈ g.entryMethods := by
  obtain ⟨m', hm', c', hc', rfl⟩ := Problem.mem_boundaryNodes.1 hb
  obtain ⟨hmem, rfl⟩ := Supergraph.of_graph?_eq_some hc'
  obtain ⟨c, hc, -, rfl, hentry, hnodes⟩ := h.exists_graph hm hd
  cases h.closed.graph_unique h.built.layout hmem hc (h.closed.entry_mem hmem) (hnodes ▸ hn)
  exact ⟨hentry, hm'⟩

theorem point_not_mem_boundaryNodes (k : Nat) : d.point k ∉ Problem.boundaryNodes g := fun hb =>
  d.point_ne_entry k (h.entry_of_mem_boundaryNodes hm hd (d.point_mem_nodes k) hb).1

theorem point_mem_nodes (k : Nat) : d.point k ∈ g.nodes := h.mem_nodes hm hd (d.point_mem_nodes k)

theorem describesAt_of_link {l : Link} (hl : l ∈ g.links) {k : Nat} (ht : l.target = d.point k)
    {x y : Fact} (hx : t.leaving.find? l.source = some x) (hy : transferLink p l x = .ok y)
    (hdesc : p.Describes y ρ) : p.DescribesAt t d ⟨m, k, ρ⟩ := by
  obtain ⟨z, hz, hle⟩ := h.solves.le_arriving h.closed.indexed hl (ht ▸ h.point_mem_nodes hm hd k)
    (ht ▸ h.point_not_mem_boundaryNodes hm hd k) hx hy
  exact ⟨z, ht ▸ hz, hdesc.mono hle⟩

/-- The fact that leaves the entry arrives at the first statement. -/
theorem describesAt_entered {b : Fact} (hb : t.leaving.find? d.entry = some b)
    (hdesc : p.Describes b ρ) : p.DescribesAt t d ⟨m, 0, ρ⟩ := by
  obtain ⟨c, hc, hcf, rfl, hentry, hnodes⟩ := h.exists_graph hm hd
  have hi : p.instr d.entry = .ok .entry :=
    Program.instr_eq_ok.2 ⟨_, h.built.layout.entry hd, rfl⟩
  have hlink := h.linked.normal hc (hnodes ▸ MethodDecl.mem_nodes.2 (.inl rfl)) hi rfl
    ((Program.indexed_of_controlFlow hcf).target_mem_succs (Program.mem_edges_entry hcf hd))
  exact h.describesAt_of_link hm hd hlink rfl hb rfl hdesc

/-- The fact that leaves a statement without a call arrives where control goes on. -/
theorem describesAt_next {k : Nat} (hk : k < d.length) {i : Instr}
    (hi : p.instr (d.stmtAt k) = .ok i) (hcall : i.isInvoke = false) {y : Fact}
    (hy : t.leaving.find? (d.stmtAt k) = some y) {ρ' : Env} (hdesc : p.Describes y ρ') :
    p.DescribesAt t d ⟨m, A.next d ρ k i, ρ'⟩ := by
  obtain ⟨c, hc, hcf, rfl, hentry, hnodes⟩ := h.exists_graph hm hd
  have hlink := h.linked.normal hc (hnodes ▸ MethodDecl.stmtAt_mem_nodes hk) hi hcall
    ((Program.indexed_of_controlFlow hcf).target_mem_succs
      (Program.mem_edges_next hcf hd hk hi A ρ))
  exact h.describesAt_of_link hm hd hlink rfl hy rfl hdesc

/-- The boundary fact of an entry method describes any values of its parameters. -/
theorem describes_boundary (hentry : m ∈ g.entryMethods) (hρ : Starts p d ρ) :
    ∃ b, t.leaving.find? d.entry = some b ∧ p.Describes b ρ := by
  obtain ⟨c', b, hc', hb, hleave⟩ := h.solves.boundary m hentry
  obtain ⟨hmem, rfl⟩ := Supergraph.of_graph?_eq_some hc'
  obtain ⟨d', hd', he, -⟩ := h.closed.graphs c' hmem
  cases hd.symm.trans hd'
  exact ⟨b, he ▸ hleave, Program.describes_parameterFact hd hb hρ⟩

variable {k : Nat} (hk : k < d.length)
include hk

/-- A statement of an activation. The fact after it stands for the new values, also after a load if
the merged value does. -/
theorem describes_go {i : Instr} (hi : p.instr (d.stmtAt k) = .ok i) (hs : stays i = true)
    (hops : p.IntOperands i) {answer : Answer} {x : Option Datum}
    (hx : A.result ρ answer i = .done x) (hat : p.DescribesAt t d ⟨m, k, ρ⟩)
    (hload : ∀ al lhs y, a = some al → loadedVar? i = some lhs → p.isIntVar lhs = .ok true →
      t.leaving.find? (d.stmtAt k) = some y → ∀ z, x = some z → (y.get lhs).Covers z) :
    (∃ y, t.leaving.find? (d.stmtAt k) = some y ∧ p.Describes y (ρ.assign i.assigned? x)) ∧
      p.DescribesAt t d ⟨m, A.next d ρ k i, ρ.assign i.assigned? x⟩ := by
  suffices hafter : ∃ y, t.leaving.find? (d.stmtAt k) = some y ∧
      p.Describes y (ρ.assign i.assigned? x) by
    obtain ⟨y, hy, hdesc⟩ := hafter
    exact ⟨⟨y, hy, hdesc⟩, h.describesAt_next hm hd hk hi (not_isInvoke_of_stays hs) hy hdesc⟩
  obtain ⟨f, hf, hdesc⟩ := hat
  obtain ⟨f', y, hf', hy, hleave⟩ := h.solves.leaving _ (h.point_mem_nodes hm hd k)
    (h.point_not_mem_boundaryNodes hm hd k)
  cases hf.symm.trans hf'
  rw [MethodDecl.point_of_lt hk] at hy hleave
  refine ⟨y, hleave, ?_⟩
  rcases transferNode_cases h.declared hi (not_isInvoke_of_stays hs) hy with
    ⟨as, has, rfl⟩ | ⟨al, lhs, v, ha, hl, hint, rfl⟩
  · exact hdesc.assign hops has hx
  · rw [assigned?_of_loadedVar? hl]
    apply hdesc.set
    intro z hz
    have hcover := hload al lhs _ ha hl hint hleave z hz
    rwa [Fact.get_set, if_pos rfl] at hcover

theorem leaving_of_describesAt {i : Instr} (hi : p.instr (d.stmtAt k) = .ok i)
    (hidle : i.isInvoke = true ∨ i.assigned? = none) (hat : p.DescribesAt t d ⟨m, k, ρ⟩) :
    ∃ y, t.leaving.find? (d.stmtAt k) = some y ∧ p.Describes y ρ := by
  obtain ⟨f, hf, hdesc⟩ := hat
  rw [← MethodDecl.point_of_lt hk] at hi ⊢
  exact ⟨f, h.leaving_of_idle (h.point_mem_nodes hm hd k) (h.point_not_mem_boundaryNodes hm hd k)
    hi hidle hf, hdesc⟩

end Method

include h in
/-- The fact at the exit describes an activation that is about to leave. -/
theorem leaving_exit {f : Frame} {x : Option Datum} (hx : Leaves p f x) (hm : f.method ∈ g.methods)
    (hd : p.method f.method = .ok d) (hat : p.DescribesAt t d f) :
    ∃ y, t.leaving.find? d.exit = some y ∧ p.Describes y f.locals := by
  have hi : p.instr d.exit = .ok .exit :=
    Program.instr_eq_ok.2 ⟨_, h.built.layout.exit hd, rfl⟩
  have hexit : ∀ {k}, d.length ≤ k → p.DescribesAt t d ⟨f.method, k, f.locals⟩ →
      ∃ y, t.leaving.find? d.exit = some y ∧ p.Describes y f.locals := by
    intro k hk hat
    obtain ⟨b, hb, hdesc⟩ := hat
    have hn := h.point_mem_nodes hm hd k
    have hfree := h.point_not_mem_boundaryNodes hm hd k
    rw [MethodDecl.point_of_le hk] at hb hn hfree
    exact ⟨b, h.leaving_of_idle hn hfree hi (.inr rfl) hb, hdesc⟩
  cases hx with
  | exit hd' hk =>
    cases hd.symm.trans hd'
    exact hexit hk hat
  | ret hd' hk hi =>
    cases hd.symm.trans hd'
    obtain ⟨b, hb, hdesc⟩ := h.leaving_of_describesAt hm hd hk hi (.inr rfl) hat
    exact hexit le_rfl (h.describesAt_next (A := default) (ρ := fun _ => none) hm hd hk hi rfl hb
      hdesc)

section Calls

variable (hm : m ∈ g.methods) (hd : p.method m = .ok d) {k : Nat} (hk : k < d.length) {call : Call}
  (hi : p.instr (d.stmtAt k) = .ok (.invoke call)) (hat : p.DescribesAt t d ⟨m, k, ρ⟩)
  {callee : MethodId} {d' : MethodDecl} (hcallee : callee ∈ g.calleesOf (d.stmtAt k))
  (hd' : p.method callee = .ok d') (hint : p.IntCall call d')
include h hm hd hk hi hcallee

theorem mem_givenCallees : callee ∈ Program.givenCallees calls (d.stmtAt k) := by
  rwa [← h.linked.callees _ (h.mem_nodes hm hd (MethodDecl.stmtAt_mem_nodes hk)) _ hi]

theorem callee_mem : callee ∈ g.methods := by
  obtain ⟨c, hc, -, rfl, -⟩ := h.exists_graph hm hd
  exact h.linked.found c hc d hd _ (MethodDecl.mem_body.2 ⟨k, hk, rfl⟩) _
    (h.mem_givenCallees hm hd hk hi hcallee)

include hat hd' hint

/-- The fact at the first statement of a method describes what a call passes. In an entry method it
is the boundary fact that does, whoever calls it. -/
theorem describesAt_entry (this : Option Datum) :
    p.DescribesAt t d' ⟨callee, 0, arguments d' this ρ call.args⟩ := by
  have hmem := h.callee_mem hm hd hk hi hcallee
  suffices hentry : ∃ b, t.leaving.find? d'.entry = some b ∧
      p.Describes b (arguments d' this ρ call.args) by
    obtain ⟨b, hb, hdesc⟩ := hentry
    exact h.describesAt_entered hmem hd' hb hdesc
  have hin : d'.entry ∈ d'.nodes := MethodDecl.mem_nodes.2 (.inl rfl)
  by_cases hb : d'.entry ∈ Problem.boundaryNodes g
  · apply h.describes_boundary hmem hd' (h.entry_of_mem_boundaryNodes hmem hd' hin hb).2
    intro v hv hvint
    obtain ⟨x, hx⟩ := Option.ne_none_iff_exists'.1 hv
    rcases arguments_eq_some hx with ⟨hr, -⟩ | ⟨w, hw, -⟩
    · cases hvint.symm.trans (h.built.isIntVar_receiver hd' hr)
    · exact (List.of_mem_zip hw).2
  · obtain ⟨z, hz, hdesc⟩ := h.leaving_of_describesAt hm hd hk hi (.inl rfl) hat
    obtain ⟨pass, hpass, -⟩ := carries_passArguments h.built.layout hd' call.args
    obtain ⟨c, hc, -, -, -, hnodes⟩ := h.exists_graph hm hd
    have hlink := (h.linked.through hc (hnodes ▸ MethodDecl.stmtAt_mem_nodes hk) hi
      (h.mem_givenCallees hm hd hk hi hcallee) hd').1
    obtain ⟨b, hb', hle⟩ := h.solves.le_arriving h.closed.indexed hlink (h.mem_nodes hmem hd' hin)
      hb hz (hpass z)
    have hentry : p.instr d'.entry = .ok .entry :=
      Program.instr_eq_ok.2 ⟨_, h.built.layout.entry hd', rfl⟩
    refine ⟨b, h.leaving_of_idle (h.mem_nodes hmem hd' hin) hb hentry (.inr rfl) hb',
      Program.Describes.mono ?_ hle⟩
    intro v x hv hx
    rcases arguments_eq_some hx with ⟨hr, -⟩ | ⟨w, hw, hρ⟩
    · cases hv.symm.trans (h.built.isIntVar_receiver hd' hr)
    · rw [passArguments_get (h.built.nodup_params hd') (hpass z) hw hv]
      exact hdesc w x (hint.arguments _ hw hv) hρ

/-- The fact where a call returns describes the caller's variables and the result. -/
theorem describesAt_returned {f : Frame} (hf : f.method = callee) {x : Option Datum}
    (hx : Leaves p f x) (hat' : p.DescribesAt t d' f) :
    p.DescribesAt t d ⟨m, k + 1, ρ.assign call.lhs x⟩ := by
  subst hf
  have hl := h.built.layout
  have hmem := h.callee_mem hm hd hk hi hcallee
  obtain ⟨c, hc, hcf, -, -, hnodes⟩ := h.exists_graph hm hd
  have hn : d.stmtAt k ∈ c.nodes := hnodes ▸ MethodDecl.stmtAt_mem_nodes hk
  have hsucc : d.point (k + 1) ∈ c.succs (d.stmtAt k) :=
    (Program.indexed_of_controlFlow hcf).target_mem_succs
      (Program.mem_edges_next hcf hd hk hi default ρ)
  have hpast := h.linked.callToReturn hc hn hi hsucc
  have hback := (h.linked.through hc hn hi (h.mem_givenCallees hm hd hk hi hcallee) hd').2 _ hsucc
  -- The caller's variables come past the call, the result comes from the exit.
  obtain ⟨z, hz, hdesc⟩ := h.leaving_of_describesAt hm hd hk hi (.inl rfl) hat
  obtain ⟨y, hy, hdesc'⟩ := h.leaving_exit hx hmem hd' hat'
  obtain ⟨past, hkeep, -⟩ := carries_passCall hi
  obtain ⟨back, hresult, -⟩ := carries_passResult h.declared hi d'.returns
  obtain ⟨b, hb, hle⟩ := h.solves.le_arriving h.closed.indexed hpast (h.point_mem_nodes hm hd _)
    (h.point_not_mem_boundaryNodes hm hd _) hz (hkeep z)
  obtain ⟨b', hb', hle'⟩ := h.solves.le_arriving h.closed.indexed hback (h.point_mem_nodes hm hd _)
    (h.point_not_mem_boundaryNodes hm hd _) hy (hresult y)
  cases hb.symm.trans hb'
  refine ⟨b, hb, describes_assign_result hi (hkeep z) hle (hresult y) hle' hdesc ?_⟩
  intro v u hlhs hv hu
  subst hu
  obtain ⟨r, hr, hru⟩ := hx.exists_mem_returns hl hd'
  exact ⟨r, hr, hdesc' r u (hint.result v hlhs hv r hr) hru⟩

end Calls

end Solution

/-- The method of the activation is in the graph, and the fact before its statement stands for what
its variables hold. -/
structure Tracked (p : Program) (g : Supergraph) (t : Dataflow.Table Fact) (f : Frame) : Prop where
  included : f.method ∈ g.methods
  described : ∃ d, p.method f.method = .ok d ∧ p.DescribesAt t d f

/-- The callers of a method, each tracked and waiting for a call that the graph lists. -/
inductive Waiting (p : Program) (g : Supergraph) (t : Dataflow.Table Fact) :
    MethodId → List Frame → Prop
  | bottom {m} : Waiting p g t m []
  | caller {callee d' m d k ρ call fs} (hf : Tracked p g t ⟨m, k, ρ⟩) (hd : p.method m = .ok d)
    (hk : k < d.length) (hi : p.instr (d.stmtAt k) = .ok (.invoke call))
    (hcallee : callee ∈ g.calleesOf (d.stmtAt k)) (hd' : p.method callee = .ok d')
    (hint : p.IntCall call d') (hrest : Waiting p g t m fs) :
    Waiting p g t callee (⟨m, k, ρ⟩ :: fs)

/-- What the steps of a stack keep. -/
structure Tracks (p : Program) (g : Supergraph) (t : Dataflow.Table Fact) (f : Frame)
    (fs : List Frame) : Prop where
  top : Tracked p g t f
  callers : Waiting p g t f.method fs

theorem Waiting.tracked {m : MethodId} {fs : List Frame} (h : Waiting p g t m fs) :
    ∀ f ∈ fs, Tracked p g t f := by
  induction h with
  | bottom => simp
  | caller hf _ _ _ _ _ _ _ ih =>
    intro f hmem
    rcases List.mem_cons.1 hmem with rfl | hmem
    · exact hf
    · exact ih f hmem

theorem Tracks.described {f : Frame} {fs : List Frame} (h : Tracks p g t f fs) :
    ∀ f' ∈ f :: fs, ∃ d, p.method f'.method = .ok d ∧ p.DescribesAt t d f' := by
  intro f' hmem
  rcases List.mem_cons.1 hmem with rfl | hmem
  · exact h.top.described
  · exact (h.callers.tracked f' hmem).described

section Steps

variable {calls : List (StmtId × MethodId)} (h : Solution p g calls a t) {m : MethodId}
  {d : MethodDecl} {k : Nat} {A : Arithmetic} {ρ : Env} {fs : List Frame}
include h

theorem Solution.tracks_start (hentry : m ∈ g.entryMethods) (hd : p.method m = .ok d)
    (hρ : Starts p d ρ) : Tracks p g t ⟨m, 0, ρ⟩ [] := by
  have hm := h.closed.entries m hentry
  obtain ⟨b, hb, hdesc⟩ := h.describes_boundary hm hd hentry hρ
  exact ⟨⟨hm, d, hd, h.describesAt_entered hm hd hb hdesc⟩, .bottom⟩

variable (hd : p.method m = .ok d) (hk : k < d.length)
include hd hk

theorem Tracks.go (ht : Tracks p g t ⟨m, k, ρ⟩ fs) {i : Instr} (hi : p.instr (d.stmtAt k) = .ok i)
    (hs : stays i = true) (hops : p.IntOperands i) {answer : Answer} {x : Option Datum}
    (hx : A.result ρ answer i = .done x)
    (hload : ∀ al lhs y, a = some al → loadedVar? i = some lhs → p.isIntVar lhs = .ok true →
      t.leaving.find? (d.stmtAt k) = some y → ∀ z, x = some z → (y.get lhs).Covers z) :
    (∃ y, t.leaving.find? (d.stmtAt k) = some y ∧ p.Describes y (ρ.assign i.assigned? x)) ∧
      Tracks p g t ⟨m, A.next d ρ k i, ρ.assign i.assigned? x⟩ fs := by
  obtain ⟨⟨hm, d', hd', hat⟩, hcallers⟩ := ht
  cases hd.symm.trans hd'
  obtain ⟨hafter, hnext⟩ := h.describes_go hm hd hk hi hs hops hx hat hload
  exact ⟨hafter, ⟨hm, d, hd, hnext⟩, hcallers⟩

variable {c : Call} (hi : p.instr (d.stmtAt k) = .ok (.invoke c))
include hi

theorem Tracks.call (ht : Tracks p g t ⟨m, k, ρ⟩ fs) {callee : MethodId} {d' : MethodDecl}
    (hcallee : callee ∈ g.calleesOf (d.stmtAt k)) (hd' : p.method callee = .ok d')
    (hint : p.IntCall c d') (this : Option Datum) :
    Tracks p g t ⟨callee, 0, arguments d' this ρ c.args⟩ (⟨m, k, ρ⟩ :: fs) := by
  obtain ⟨hf, hcallers⟩ := ht
  obtain ⟨hm, d₀, hd₀, hat⟩ := hf
  cases hd.symm.trans hd₀
  have hentry := h.describesAt_entry hm hd hk hi hat hcallee hd' hint this
  exact ⟨⟨h.callee_mem hm hd hk hi hcallee, d', hd', hentry⟩,
    .caller ⟨hm, d, hd, hat⟩ hd hk hi hcallee hd' hint hcallers⟩

theorem Tracks.leave {f : Frame} (ht : Tracks p g t f (⟨m, k, ρ⟩ :: fs)) {x : Option Datum}
    (hx : Leaves p f x) : Tracks p g t ⟨m, k + 1, ρ.assign c.lhs x⟩ fs := by
  obtain ⟨⟨-, d₁, hd₁, hat'⟩, hcallers⟩ := ht
  cases hcallers with
  | caller hf hd₀ _ hi₀ hcallee hd' hint hrest =>
    cases hd.symm.trans hd₀
    cases hi.symm.trans hi₀
    cases hd₁.symm.trans hd'
    obtain ⟨hm, d₂, hd₂, hat⟩ := hf
    cases hd.symm.trans hd₂
    exact ⟨⟨hm, d, hd, h.describesAt_returned hm hd hk hi hat hcallee hd' hint rfl hx hat'⟩,
      hrest⟩

end Steps

/-- The fact after the statement of the activation stands for these variables. -/
def DescribesAfter (p : Program) (t : Dataflow.Table Fact) (f : Frame) (ρ : Env) : Prop :=
  ∃ d y, p.method f.method = .ok d ∧ t.leaving.find? (d.point f.position) = some y ∧
    p.Describes y ρ

variable {calls : List (StmtId × MethodId)} {entries : List MethodId} {A : Arithmetic}

/-- The fact after a call describes what waits for it. -/
theorem Waiting.describesAfter (h : Solution p g calls a t) {m : MethodId} {fs : List Frame}
    (hw : Waiting p g t m fs) : ∀ f ∈ fs, DescribesAfter p t f f.locals := by
  induction hw with
  | bottom => simp
  | @caller _ _ _ d k _ _ _ hf hd hk hi _ _ _ _ ih =>
    intro f hmem
    rcases List.mem_cons.1 hmem with rfl | hmem
    · obtain ⟨hm, d', hd', hat⟩ := hf
      cases hd.symm.trans hd'
      obtain ⟨y, hy, hdesc⟩ := h.leaving_of_describesAt hm hd hk hi (.inl rfl) hat
      exact ⟨d, y, hd, MethodDecl.point_of_lt hk ▸ hy, hdesc⟩
    · exact ih f hmem

/-- Without aliases constant propagation is sound for every run that enters listed methods only: the
fact before the statement of each activation stands for what its integer variables hold, and so do
the fact after the call that an activation waits for and the fact after the statement that the
latest one executes. -/
theorem describes_reached (hp : p.Built) (hs : p.Scoped)
    (hops : ∀ s i, p.instr s = .ok i → p.IntOperands i)
    (hg : p.supergraph entries calls = .ok g) (hcalls : p.IntCalls g)
    (ht : (constantPropagation p none).solve g = .ok t) {fs : List Frame} (hr : Reaches A p g fs) :
    (∀ f ∈ fs, ∃ d, p.method f.method = .ok d ∧ p.DescribesAt t d f) ∧
    (∀ f ∈ fs.tail, DescribesAfter p t f f.locals) ∧
    ∀ f f' callers answer, fs = f :: callers → Moves A p fs (.go answer) (f' :: callers) →
      DescribesAfter p t f f'.locals := by
  have h : Solution p g calls none t := .of_solve_eq_ok hp hs hg (by simp) ht
  obtain ⟨f, callers, rfl, htr⟩ : ∃ f callers, fs = f :: callers ∧ Tracks p g t f callers := by
    induction hr with
    | start hm hd hρ => exact ⟨_, _, rfl, h.tracks_start hm hd hρ⟩
    | step _ hmove hlisted ih =>
      obtain ⟨f, callers, rfl, htr⟩ := ih
      cases hmove with
      | go hd hk hi hstays hx =>
        exact ⟨_, _, rfl, (htr.go h hd hk hi hstays (hops _ _ hi) hx (by simp)).2⟩
      | call hd hk hi hd' =>
        exact ⟨_, _, rfl, htr.call h hd hk hi hlisted hd' (hcalls.intCall hi hlisted hd') _⟩
      | leave hx hd hk hi => exact ⟨_, _, rfl, htr.leave h hd hk hi hx⟩
  refine ⟨htr.described, htr.callers.describesAfter h, ?_⟩
  intro f₀ f' callers₀ answer he hmove
  cases he
  cases hmove with
  | go hd hk hi hstays hx =>
    obtain ⟨⟨y, hy, hdesc⟩, -⟩ := htr.go h hd hk hi hstays (hops _ _ hi) hx (by simp)
    exact ⟨_, y, hd, MethodDecl.point_of_lt hk ▸ hy, hdesc⟩

/-- A method that calls itself with one less until nothing is left, and then returns a one. -/
def countdown : Program where
  classes := #[⟨"Main", none, false, [("main", ⟨0⟩), ("down", ⟨1⟩)]⟩]
  fields := #[]
  methods := #[
    ⟨"main", ⟨0⟩, true, false, [], none, [⟨1⟩], 0, 3⟩,
    ⟨"down", ⟨0⟩, true, false, [⟨2⟩], none, [⟨3⟩], 5, 5⟩]
  vars := #[
    ⟨"x", .int, ⟨0⟩⟩, ⟨"y", .int, ⟨0⟩⟩,
    ⟨"n", .int, ⟨1⟩⟩, ⟨"one", .int, ⟨1⟩⟩, ⟨"less", .int, ⟨1⟩⟩, ⟨"r", .int, ⟨1⟩⟩]
  stmts := #[
    ⟨⟨0⟩, none, .entry⟩,
    ⟨⟨0⟩, some 0, .literal ⟨0⟩ (.int 2)⟩,
    ⟨⟨0⟩, some 1, .invoke ⟨some ⟨1⟩, .static, ⟨⟨0⟩, "down"⟩, none, [⟨0⟩]⟩⟩,
    ⟨⟨0⟩, some 2, .ret (some ⟨1⟩)⟩,
    ⟨⟨0⟩, none, .exit⟩,
    ⟨⟨1⟩, none, .entry⟩,
    ⟨⟨1⟩, some 0, .literal ⟨3⟩ (.int 1)⟩,
    ⟨⟨1⟩, some 1, .branch ⟨.lt, ⟨2⟩, ⟨3⟩⟩ 4⟩,
    ⟨⟨1⟩, some 2, .binary ⟨4⟩ ⟨.sub, ⟨2⟩, ⟨3⟩⟩⟩,
    ⟨⟨1⟩, some 3, .invoke ⟨some ⟨5⟩, .static, ⟨⟨0⟩, "down"⟩, none, [⟨4⟩]⟩⟩,
    ⟨⟨1⟩, some 4, .ret (some ⟨3⟩)⟩,
    ⟨⟨1⟩, none, .exit⟩]
  main := some ⟨0⟩

open MethodBuilder in
theorem countdown_built : countdown.Built := by
  have hmain := (Builder.Assembled.empty.addClass "Main" none).finish ⟨0⟩ "main" true rfl
    (((((Edits.refl.addLocal "x" .int).addLocal "y" .int).push (.literal ⟨0⟩ (.int 2))).push
      (.invoke ⟨some ⟨1⟩, .static, ⟨⟨0⟩, "down"⟩, none, [⟨0⟩]⟩)).push (.ret (some ⟨1⟩)))
  have hdown := hmain.finish ⟨0⟩ "down" true rfl
    (((((((((Edits.refl.addParam "n" .int).addLocal "one" .int).addLocal "less" .int).addLocal
      "r" .int).push (.literal ⟨3⟩ (.int 1))).push (.branch ⟨.lt, ⟨2⟩, ⟨3⟩⟩ 4)).push
      (.binary ⟨4⟩ ⟨.sub, ⟨2⟩, ⟨3⟩⟩)).push
      (.invoke ⟨some ⟨5⟩, .static, ⟨⟨0⟩, "down"⟩, none, [⟨4⟩]⟩)).push (.ret (some ⟨3⟩)))
  exact ⟨_, hdown.setMain ⟨0⟩, by decide +kernel⟩

theorem countdown_scoped : countdown.Scoped := by decide

/-- In the second activation the fact before the branch stands for the literal and for what the
first one has passed. -/
theorem describes_reached_countdown : ∃ g t x,
    countdown.supergraph [⟨0⟩] [(⟨2⟩, ⟨1⟩), (⟨9⟩, ⟨1⟩)] = .ok g ∧
    (constantPropagation countdown none).solve g = .ok t ∧ t.arriving.find? ⟨7⟩ = some x ∧
      x.get ⟨3⟩ = .constant 1 ∧ (x.get ⟨2⟩).Covers (.int 1) := by
  have hrun : (do
      let g ← countdown.supergraph [⟨0⟩] [(⟨2⟩, ⟨1⟩), (⟨9⟩, ⟨1⟩)]
      let t ← (constantPropagation countdown none).solve g
      return decide (countdown.IntCalls g ∧ ⟨0⟩ ∈ g.entryMethods ∧ ⟨1⟩ ∈ g.calleesOf ⟨2⟩ ∧
        ⟨1⟩ ∈ g.calleesOf ⟨9⟩ ∧ (t.arriving.find? ⟨7⟩).map (·.get ⟨3⟩) = some (.constant 1)) :
      Outcome Bool) = .ok true := by decide +kernel
  obtain ⟨g, hg, hrun⟩ := Outcome.bind_eq_ok.1 hrun
  obtain ⟨t, ht, hrun⟩ := Outcome.bind_eq_ok.1 hrun
  obtain ⟨hcalls, hentry, hcall, hagain, hone⟩ := of_decide_eq_true (Except.ok.inj hrun)
  have hops : ∀ s i, countdown.instr s = .ok i → countdown.IntOperands i :=
    Program.forall_instr.2 (by decide)
  -- Main passes a two, which its callee passes on less one.
  have hmain : Reaches default countdown g [⟨⟨0⟩, 0, fun _ => none⟩] :=
    .start hentry rfl fun _ hv => absurd rfl hv
  have htwo := hmain.step (a := .go .trap) (.go rfl (by decide) rfl rfl rfl) trivial
  have hfirst := htwo.step (a := .call _ _ none) (.call rfl (by decide) rfl rfl) hcall
  have hliteral := hfirst.step (a := .go .trap) (.go rfl (by decide) rfl rfl rfl) trivial
  have hbranch := hliteral.step (a := .go .trap) (.go rfl (by decide) rfl rfl rfl) trivial
  have hless := hbranch.step (a := .go .trap) (.go rfl (by decide) rfl rfl rfl) trivial
  have hsecond := hless.step (a := .call _ _ none) (.call rfl (by decide) rfl rfl) hagain
  have hready := hsecond.step (a := .go .trap) (.go rfl (by decide) rfl rfl rfl) trivial
  obtain ⟨hbefore, -⟩ := describes_reached countdown_built countdown_scoped hops hg hcalls ht hready
  obtain ⟨d, hd, x, hx, hdesc⟩ := hbefore _ (.head _)
  cases hd
  have hx : t.arriving.find? ⟨7⟩ = some x := hx
  rw [hx] at hone
  exact ⟨g, t, x, hg, ht, hx, Option.some.inj hone, hdesc ⟨2⟩ _ rfl rfl⟩

end ProgramFlow.Interprocedural
