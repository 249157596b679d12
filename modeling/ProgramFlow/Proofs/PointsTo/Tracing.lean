import ProgramFlow.Proofs.PointsTo.Simulation
import ProgramFlow.Proofs.Program.Memory
/-!
The inference rules follow the runs with a memory. As far as references go, a step of such a run is
one or two steps of a run that they are known to follow.
-/
namespace ProgramFlow.Machine

/-- The activation as far as references go. -/
def Frame.image (p : Program) (f : Frame) : Execution.Frame where
  method := f.method
  site :=
    match p.method f.method with
    | .ok d => d.point f.position
    | .error _ => ⟨0⟩
  locals := f.locals.addresses

/-- The memory and the stack as far as references go. -/
def image (p : Program) (μ : Memory) (f : Frame) (fs : List Frame) : Execution.Config :=
  ⟨μ.store, f.image p, fs.map (·.image p)⟩

/-- The call that the action executes. -/
def Action.call? : Action → Option (StmtId × MethodId)
  | .call site callee _ => some (site, callee)
  | .go _ | .leave => none

variable {p : Program} {m : MethodId} {d : MethodDecl} {k : Nat} {ρ : Env}

theorem Frame.image_eq (hd : p.method m = .ok d) :
    Frame.image p ⟨m, k, ρ⟩ = ⟨m, d.point k, ρ.addresses⟩ := by
  simp [image, hd]

theorem passes_entry (hl : p.Layout) (hd : p.method m = .ok d) (ρ : Execution.Locals) :
    Execution.Frame.Passes p ⟨m, d.entry, ρ⟩ (d.point 0) := by
  obtain ⟨g, hg, -⟩ := hl.controlFlow hd
  have hedge := Program.mem_edges_entry hg hd
  exact ⟨g, hg, (Program.indexed_of_controlFlow hg).target_mem_succs hedge⟩

theorem passes_next (hl : p.Layout) (hd : p.method m = .ok d) (hk : k < d.length) {i : Instr}
    (hi : p.instr (d.stmtAt k) = .ok i) (A : Arithmetic) (ρ : Env) (ρ' : Execution.Locals) :
    Execution.Frame.Passes p ⟨m, d.stmtAt k, ρ'⟩ (d.point (A.next d ρ k i)) := by
  obtain ⟨g, hg, -⟩ := hl.controlFlow hd
  have hedge := Program.mem_edges_next hg hd hk hi A ρ
  exact ⟨g, hg, (Program.indexed_of_controlFlow hg).target_mem_succs hedge⟩

end ProgramFlow.Machine

namespace ProgramFlow.PointsTo

open Machine (image)

variable {p : Program} {σ : Sensitivity} {ls : List Location} {t : Trail} {m : MethodId}
  {d : MethodDecl} {calls : List (StmtId × MethodId)}

section

variable (hl : p.Layout)
include hl

/-- From the entry of a method control goes to its first statement. -/
theorem Simulates.begin (hd : p.method m = .ok d) {μ : Execution.Store} {ρ : Execution.Locals}
    {fs : List Execution.Frame} (h : Simulates p σ ls t ⟨μ, ⟨m, d.entry, ρ⟩, fs⟩ calls) :
    ∃ ls' t', Simulates p σ ls' t' ⟨μ, ⟨m, d.point 0, ρ⟩, fs⟩ calls := by
  have hi : p.instr d.entry = .ok .entry := Program.instr_eq_ok.2 ⟨_, hl.entry hd, rfl⟩
  exact h.step hl (.advance hi (.primitive rfl) (Machine.passes_entry hl hd ρ))

theorem exists_simulates_start (hm : p.main = some m) (hd : p.method m = .ok d) {ρ : Machine.Env}
    (hnull : ∀ v, ρ.addresses v = none) :
    ∃ ls t, Simulates p σ ls t (image p .empty ⟨m, 0, ρ⟩ []) [] := by
  have hρ : ρ.addresses = .empty := funext hnull
  have hinit := simulates_initial (σ := σ) hm hd
  rw [image, Machine.Frame.image_eq hd, hρ]
  exact hinit.begin hl hd

/-- A step of a run with a memory is followed. -/
theorem Simulates.moves {A : Machine.Arithmetic} {μ μ' : Machine.Memory} {f : Machine.Frame}
    {fs fs' : List Machine.Frame} {a : Machine.Action}
    (h : Simulates p σ ls t (image p μ f fs) calls) (hs : Machine.Moves A p (f :: fs) a fs')
    (hr : Machine.Responds p μ (f :: fs) a μ') :
    ∃ f' callers ls' t', fs' = f' :: callers ∧
      Simulates p σ ls' t' (image p μ' f' callers) (a.call?.toList ++ calls) := by
  cases hs with
  | @go m d k ρ i answer x _ hd hk hi hstays hx =>
    have ha : Machine.Answers (d.stmtAt k) μ ρ i answer μ' := by
      cases hr with
      | go hd' hi' ha =>
        cases hd.symm.trans hd'
        cases hi.symm.trans hi'
        exact ha
    have hpass := Machine.passes_next hl hd hk hi A ρ ρ.addresses
    rw [image, Machine.Frame.image_eq hd, MethodDecl.point_of_lt hk] at h
    by_cases hexit : i = .exit
    · -- An exit among the statements does nothing, and control goes on behind it.
      subst hexit
      obtain rfl : μ' = μ := by
        cases ha with
        | own => rfl
        | load hload => cases hload
        | store hstore => cases hstore
      refine ⟨_, _, ls, t, rfl, ?_⟩
      rw [image, Machine.Frame.image_eq hd]
      exact ⟨h.store, h.top.pass hl hpass, h.callers, h.calls⟩
    · obtain ⟨ls', t', h⟩ := h.step hl (.advance hi (ha.effect hstays hexit hx) hpass)
      refine ⟨_, _, ls', t', rfl, ?_⟩
      rw [image, Machine.Frame.image_eq hd]
      exact h
  | @call m d k ρ call callee d' this _ hd hk hi hd' =>
    cases hr with
    | call hi' he =>
      cases hi.symm.trans hi'
      rw [image, Machine.Frame.image_eq hd, MethodDecl.point_of_lt hk] at h
      obtain ⟨ls', t', h⟩ := h.step hl (.call hi he hd')
      obtain ⟨ls', t', h⟩ := h.begin hl hd'
      refine ⟨_, _, ls', t', rfl, ?_⟩
      rw [image, Machine.Frame.image_eq hd', List.map_cons, Machine.Frame.image_eq hd,
        MethodDecl.point_of_lt hk, Machine.addresses_arguments]
      exact h
  | @leave _ m d k ρ call x _ hf hd hk hi =>
    cases hr with
    | leave =>
      rw [image, List.map_cons, Machine.Frame.image_eq hd, MethodDecl.point_of_lt hk] at h
      have hpass := Machine.passes_next hl hd hk hi A ρ ρ.addresses
      have hresult : ∃ j, p.instr (f.image p).site = .ok j ∧
          Execution.result? (f.image p).locals j = some (x.bind Machine.Datum.address?) := by
        cases hf with
        | @ret m' d' k' ρ' v hd' hk' hi' =>
          rw [Machine.Frame.image_eq hd', MethodDecl.point_of_lt hk']
          refine ⟨_, hi', ?_⟩
          cases v <;> rfl
        | exit hd' hk' =>
          rw [Machine.Frame.image_eq hd', MethodDecl.point_of_le hk']
          exact ⟨_, Program.instr_eq_ok.2 ⟨_, hl.exit hd', rfl⟩, rfl⟩
      obtain ⟨j, hj, hresult⟩ := hresult
      obtain ⟨ls', t', h⟩ := h.step hl (.leave hj hresult hi hpass)
      refine ⟨_, _, ls', t', rfl, ?_⟩
      rw [image, Machine.Frame.image_eq hd, Machine.Env.addresses_assign]
      exact h

end

end ProgramFlow.PointsTo
