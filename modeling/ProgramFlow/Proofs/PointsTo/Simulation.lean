import ProgramFlow.Proofs.Graph.ControlFlow
import ProgramFlow.Proofs.PointsTo.Rules
import ProgramFlow.Proofs.Program.Execution
/-!
The inference rules follow every run: each activation has a context in which its method is
reachable, each object has a location, and what holds a reference has the object's location.
-/
namespace ProgramFlow.PointsTo

open Execution

section

variable (p : Program) (σ : Sensitivity) (ls : List Location)

/-- The slot points to the location of the object at the address. -/
def Holds (a : Slot) (n : Address) : Prop :=
  ∃ l, ls[n]? = some l ∧ Derivable p σ (.pointsTo a l)

/-- The place belongs to the slot. -/
inductive Within : Place → Slot → Prop
  | staticField {f} : Within (.staticField f) (.staticField f)
  | instanceField {n f l} (h : ls[n]? = some l) :
    Within (.instanceField n f) (.instanceField l f)
  | arrayElement {n index l} (h : ls[n]? = some l) :
    Within (.arrayElement n index) (.arrayElement l)

/-- The location has arrived somewhere and is one of the site that has allocated the object. -/
structure Located (o : Object) (l : Location) : Prop where
  site : o.site = l.site
  record : ∃ r, p.Allocates r ∧ r.site = o.site ∧ r.ty = o.ty
  arrived : ∃ a, Derivable p σ (.pointsTo a l)

structure Charted (μ : Store) : Prop where
  objects : List.Forall₂ (Located p σ) μ.objects ls
  memory : ∀ {x n}, μ.memory x = some n → ∃ a, Within ls x a ∧ Holds p σ ls a n

/-- The activation is one of its method in the context. -/
structure Situated (t : Trail) (f : Frame) : Prop where
  reachable : Derivable p σ (.reachable t f.method)
  site : ∃ d, p.method f.method = .ok d ∧ f.site ∈ d.nodes
  locals : ∀ {v n}, f.locals v = some n → Holds p σ ls (.var t v) n

/-- The callers of a method in a context, each waiting for the call that leads there. -/
inductive Chained : Trail → MethodId → List Frame → Prop
  | bottom {t m} : Chained t m []
  | caller {t m t' f k call} (hf : Situated p σ ls t' f)
    (hi : p.instr f.site = .ok (.invoke call))
    (hc : Derivable p σ (.call ⟨call.kind, f.site, f.method, t', m, t⟩))
    (hk : Chained t' f.method k) : Chained t m (f :: k)

structure Simulates (t : Trail) (c : Config) (calls : List (StmtId × MethodId)) : Prop where
  store : Charted p σ ls c.store
  top : Situated p σ ls t c.top
  callers : Chained p σ ls t c.top.method c.callers
  calls : ∀ x ∈ calls, ∃ i, Derivable p σ (.call i) ∧ i.site = x.1 ∧ i.callee = x.2

end

variable {p : Program} {σ : Sensitivity} {ls ls' : List Location}

theorem Within.unique {x : Place} {a b : Slot} (ha : Within ls x a) (hb : Within ls x b) :
    a = b := by
  cases ha with
  | staticField => cases hb; rfl
  | instanceField h =>
    cases hb with
    | instanceField h' => rw [Option.some.inj (h.symm.trans h')]
  | arrayElement h =>
    cases hb with
    | arrayElement h' => rw [Option.some.inj (h.symm.trans h')]

theorem Holds.carried {a b : Slot} {n : Address} (h : Holds p σ ls a n)
    (hf : Derivable p σ (.flow a b)) : Holds p σ ls b n := by
  obtain ⟨l, hl, ha⟩ := h
  exact ⟨l, hl, .carried hf ha⟩

/-! More locations change nothing. -/

theorem getElem?_of_isPrefix (hle : ls <+: ls') {n : Address} {l : Location}
    (h : ls[n]? = some l) : ls'[n]? = some l := by
  obtain ⟨_, rfl⟩ := hle
  rw [List.getElem?_append_left (List.getElem?_eq_some_iff.1 h).1, h]

theorem Holds.mono {a : Slot} {n : Address} (h : Holds p σ ls a n) (hle : ls <+: ls') :
    Holds p σ ls' a n := by
  obtain ⟨l, hl, ha⟩ := h
  exact ⟨l, getElem?_of_isPrefix hle hl, ha⟩

theorem Within.mono {x : Place} {a : Slot} (h : Within ls x a) (hle : ls <+: ls') :
    Within ls' x a := by
  cases h with
  | staticField => exact .staticField
  | instanceField h => exact .instanceField (getElem?_of_isPrefix hle h)
  | arrayElement h => exact .arrayElement (getElem?_of_isPrefix hle h)

theorem Situated.mono {t : Trail} {f : Frame} (h : Situated p σ ls t f) (hle : ls <+: ls') :
    Situated p σ ls' t f where
  reachable := h.reachable
  site := h.site
  locals hv := (h.locals hv).mono hle

theorem Chained.mono {t : Trail} {m : MethodId} {k : List Frame} (h : Chained p σ ls t m k)
    (hle : ls <+: ls') : Chained p σ ls' t m k := by
  induction h with
  | bottom => exact .bottom
  | caller hf hi hc _ ih => exact .caller (hf.mono hle) hi hc ih

/-! The store. -/

namespace Charted

variable {μ : Store}

theorem exists_object (h : Charted p σ ls μ) {n : Address} {l : Location} (hl : ls[n]? = some l) :
    ∃ o, μ.objects[n]? = some o ∧ Located p σ o l := by
  obtain ⟨hn, rfl⟩ := List.getElem?_eq_some_iff.1 hl
  have hn' : n < μ.objects.length := h.objects.length_eq ▸ hn
  exact ⟨_, List.getElem?_eq_getElem hn', h.objects.get hn' hn⟩

/-- What is read from a place arrives where the slot of the place flows. -/
theorem read (h : Charted p σ ls μ) {x : Place} {a b : Slot} (hx : Within ls x a)
    (hf : Derivable p σ (.flow a b)) {n : Address} (hn : μ.memory x = some n) :
    Holds p σ ls b n := by
  obtain ⟨a', hx', ha⟩ := h.memory hn
  cases hx.unique hx'
  exact ha.carried hf

theorem write (h : Charted p σ ls μ) {x : Place} {a : Slot} {y : Content} (hx : Within ls x a)
    (hy : ∀ {n}, y = some n → Holds p σ ls a n) : Charted p σ ls (μ.write x y) where
  objects := h.objects
  memory hn := by
    rcases Store.memory_write_eq_some hn with ⟨rfl, hyn⟩ | hn
    · exact ⟨a, hx, hy hyn⟩
    · exact h.memory hn

theorem allocate (h : Charted p σ ls μ) {o : Object} {l : Location} (ho : Located p σ o l) :
    Charted p σ (ls ++ [l]) (μ.allocate o) where
  objects := List.rel_append h.objects (.cons ho .nil)
  memory hn := by
    obtain ⟨a, hx, ha⟩ := h.memory hn
    exact ⟨a, hx.mono (List.prefix_append ..), ha.mono (List.prefix_append ..)⟩

end Charted

/-! Activations. -/

namespace Situated

variable {t : Trail} {f : Frame}

theorem assign (h : Situated p σ ls t f) {lhs : Option VarId} {a : Content}
    (ha : ∀ {v n}, lhs = some v → a = some n → Holds p σ ls (.var t v) n) :
    Situated p σ ls t { f with locals := f.locals.assign lhs a } where
  reachable := h.reachable
  site := h.site
  locals hv := by
    rcases Locals.assign_eq_some hv with ⟨hlhs, hn⟩ | hv
    · exact ha hlhs hn
    · exact h.locals hv

section

variable (hl : p.Layout)
include hl

theorem contains (h : Situated p σ ls t f) {i : Instr} (hi : p.instr f.site = .ok i)
    (hend : i.isEnd = false) : p.Contains f.method f.site i := by
  obtain ⟨d, hd, hs⟩ := h.site
  exact hl.contains_of_mem hd hs hi hend

theorem pass (h : Situated p σ ls t f) {s : StmtId} (hs : f.Passes p s) :
    Situated p σ ls t { f with site := s } where
  reachable := h.reachable
  site := by
    obtain ⟨g, hg, hs⟩ := hs
    obtain ⟨d, hd, -, -, -, hnodes, hclosed⟩ := hl.of_controlFlow hg
    exact ⟨d, hd, hnodes ▸ hclosed.succs hs⟩
  locals := h.locals

theorem exists_passes (h : Situated p σ ls t f) {i : Instr} (hi : p.instr f.site = .ok i)
    (hexit : i ≠ .exit) : ∃ s, f.Passes p s := by
  obtain ⟨d, hd, hs⟩ := h.site
  have hne : f.site ≠ d.exit := by
    intro heq
    obtain ⟨x, hx, rfl⟩ := Program.instr_eq_ok.1 hi
    rw [heq] at hx
    cases hx.symm.trans (hl.exit hd)
    exact hexit rfl
  obtain ⟨g, hg, -⟩ := hl.controlFlow hd
  obtain ⟨s, hs⟩ := hl.exists_mem_succs hg hd hs hne
  exact ⟨s, g, hg, hs⟩

theorem loadField (h : Situated p σ ls t f) {lhs : VarId} {access : FieldAccess}
    (hi : p.instr f.site = .ok (.loadField lhs access)) {x : Place}
    (hx : f.locals.place? access = some x) :
    ∃ a, Within ls x a ∧ Derivable p σ (.flow a (.var t lhs)) := by
  have hin := h.contains hl hi rfl
  cases access with
  | static field =>
    cases hx
    exact ⟨_, .staticField, .immediate h.reachable hin .load⟩
  | «instance» b field =>
    obtain ⟨n, hn, rfl⟩ := Option.map_eq_some_iff.1 hx
    obtain ⟨l, hl, hb⟩ := h.locals hn
    exact ⟨_, .instanceField hl, .perObject h.reachable hin hb .load⟩

theorem storeField (h : Situated p σ ls t f) {rhs : VarId} {access : FieldAccess}
    (hi : p.instr f.site = .ok (.storeField access rhs)) {x : Place}
    (hx : f.locals.place? access = some x) :
    ∃ a, Within ls x a ∧ Derivable p σ (.flow (.var t rhs) a) := by
  have hin := h.contains hl hi rfl
  cases access with
  | static field =>
    cases hx
    exact ⟨_, .staticField, .immediate h.reachable hin .store⟩
  | «instance» b field =>
    obtain ⟨n, hn, rfl⟩ := Option.map_eq_some_iff.1 hx
    obtain ⟨l, hl, hb⟩ := h.locals hn
    exact ⟨_, .instanceField hl, .perObject h.reachable hin hb .store⟩

/-- A statement within a method. Only an allocation needs a new location. -/
theorem effect (h : Situated p σ ls t f) {μ μ' : Store} (hμ : Charted p σ ls μ) {i : Instr}
    (hi : p.instr f.site = .ok i) {ρ : Locals} (he : Effect f.site μ f.locals i μ' ρ) {s : StmtId}
    (hs : f.Passes p s) : ∃ ls', ls <+: ls' ∧ Charted p σ ls' μ' ∧
      Situated p σ ls' t ⟨f.method, s, ρ⟩ := by
  cases he with
  | @new lhs ty =>
    have hin := h.contains hl hi rfl
    have hnew := Derivable.immediate h.reachable hin .new
    obtain ⟨d, hd, hb, -⟩ := hin
    have hle : ls <+: ls ++ [⟨σ.heapTrail t, f.site⟩] := List.prefix_append ..
    refine ⟨_, hle, hμ.allocate ⟨rfl, ⟨⟨f.site, ty, f.method, d.owner⟩, ⟨d, lhs, hd, rfl, hb, hi⟩,
      rfl, rfl⟩, _, hnew⟩, ((h.mono hle).pass hl hs).assign ?_⟩
    rintro _ _ ⟨⟩ ⟨⟩
    refine ⟨_, ?_, hnew⟩
    rw [hμ.objects.length_eq, List.getElem?_concat_length]
  | copy =>
    have hflow := Derivable.immediate h.reachable (h.contains hl hi rfl) .copy
    refine ⟨ls, List.prefix_rfl, hμ, (h.pass hl hs).assign ?_⟩
    rintro _ n ⟨⟩ hn
    exact (h.locals hn).carried hflow
  | cast =>
    have hflow := Derivable.immediate h.reachable (h.contains hl hi rfl) .cast
    refine ⟨ls, List.prefix_rfl, hμ, (h.pass hl hs).assign ?_⟩
    rintro _ n ⟨⟩ hn
    exact (h.locals hn).carried hflow
  | load hx =>
    obtain ⟨a, hx, hflow⟩ := h.loadField hl hi hx
    refine ⟨ls, List.prefix_rfl, hμ, (h.pass hl hs).assign ?_⟩
    rintro _ n ⟨⟩ hn
    exact hμ.read hx hflow hn
  | store hx =>
    obtain ⟨a, hx, hflow⟩ := h.storeField hl hi hx
    exact ⟨ls, List.prefix_rfl, hμ.write hx fun hn => (h.locals hn).carried hflow, h.pass hl hs⟩
  | loadElement index ha =>
    obtain ⟨l, hn, hb⟩ := h.locals ha
    have hflow := Derivable.perObject h.reachable (h.contains hl hi rfl) hb .loadElement
    refine ⟨ls, List.prefix_rfl, hμ, (h.pass hl hs).assign ?_⟩
    rintro _ n ⟨⟩ hm
    exact hμ.read (.arrayElement hn) hflow hm
  | storeElement index ha =>
    obtain ⟨l, hn, hb⟩ := h.locals ha
    have hflow := Derivable.perObject h.reachable (h.contains hl hi rfl) hb .storeElement
    exact ⟨ls, List.prefix_rfl, hμ.write (.arrayElement hn) fun hm => (h.locals hm).carried hflow,
      h.pass hl hs⟩
  | primitive =>
    refine ⟨ls, List.prefix_rfl, hμ, (h.pass hl hs).assign ?_⟩
    rintro _ _ - ⟨⟩
  | idle => exact ⟨ls, List.prefix_rfl, hμ, h.pass hl hs⟩

/-- A call leads to a context of the method that it enters, where the receiver arrives. -/
theorem enters (h : Situated p σ ls t f) {μ : Store} (hμ : Charted p σ ls μ) {call : Call}
    (hi : p.instr f.site = .ok (.invoke call)) {callee : MethodId} {this : Content}
    (he : Enters p μ f.locals call callee this) {d : MethodDecl} (hd : p.method callee = .ok d) :
    ∃ t', Derivable p σ (.call ⟨call.kind, f.site, f.method, t, callee, t'⟩) ∧
      ∀ {v n}, d.receiver = some v → this = some n → Holds p σ ls (.var t' v) n := by
  have hin := h.contains hl hi rfl
  cases he with
  | static hk hc =>
    refine ⟨_, .immediate h.reachable hin (.invoke hk hc), ?_⟩
    rintro _ _ - ⟨⟩
  | «instance» hk hr ha ho hc =>
    obtain ⟨l, hn, hb⟩ := h.locals ha
    obtain ⟨x, hx, hxl⟩ := hμ.exists_object hn
    cases ho.symm.trans hx
    obtain ⟨o, hal, hos, hty⟩ := hxl.record
    have hc : p.resolve o.class? call = .ok (some callee) := by rw [Obj.class?, hty, hc]
    have hol := hos.trans hxl.site
    refine ⟨_, .perObject h.reachable hin hb (.invoke hr hal hol hc), ?_⟩
    rintro v _ hv ⟨⟩
    exact ⟨l, hn, .perObject h.reachable hin hb (.receiver hr hal hol hc hd hv)⟩

end

/-- The activation of a called method. -/
theorem entered (h : Situated p σ ls t f) {call : Call} (hi : p.instr f.site = .ok (.invoke call))
    {callee : MethodId} {d : MethodDecl} (hd : p.method callee = .ok d) {t' : Trail}
    (hc : Derivable p σ (.call ⟨call.kind, f.site, f.method, t, callee, t'⟩)) {this : Content}
    (hthis : ∀ {v n}, d.receiver = some v → this = some n → Holds p σ ls (.var t' v) n) :
    Situated p σ ls t' ⟨callee, d.entry, arguments d this f.locals call.args⟩ where
  reachable := .linked hc .reachable
  site := ⟨d, hd, MethodDecl.mem_nodes.2 (.inl rfl)⟩
  locals hv := by
    rcases arguments_eq_some hv with ⟨hr, hn⟩ | ⟨w, hw, hn⟩
    · exact hthis hr hn
    · exact (h.locals hn).carried (.linked hc (.argument hi hd hw))

/-- What a method returns arrives in the result of the call. -/
theorem returned (hl : p.Layout) (h : Situated p σ ls t f) {i : Instr}
    (hi : p.instr f.site = .ok i) {a : Content} (ha : result? f.locals i = some a)
    {kind : CallKind} {site : StmtId} {caller : MethodId} {t' : Trail}
    (hc : Derivable p σ (.call ⟨kind, site, caller, t', f.method, t⟩)) {call : Call}
    (hcall : p.instr site = .ok (.invoke call)) {lhs : VarId} {n : Address}
    (hlhs : call.lhs = some lhs) (hn : a = some n) : Holds p σ ls (.var t' lhs) n := by
  subst hn
  unfold result? at ha
  split at ha
  · next v =>
    obtain ⟨d, hd, hb, -⟩ := h.contains hl hi rfl
    have hv : v ∈ d.returns := (hl.returns hd).2 ⟨_, hb, hi⟩
    exact (h.locals (Option.some.inj ha)).carried (.linked hc (.result hcall hd hlhs hv))
  · cases ha
  · cases ha
  · cases ha

end Situated

theorem simulates_initial {m : MethodId} {d : MethodDecl} (hm : p.main = some m)
    (hd : p.method m = .ok d) : Simulates p σ [] [] (.initial m d) [] where
  store := ⟨.nil, by rintro _ _ ⟨⟩⟩
  top := ⟨.main hm, ⟨d, hd, MethodDecl.mem_nodes.2 (.inl rfl)⟩, by rintro _ _ ⟨⟩⟩
  callers := .bottom
  calls := by simp

section

variable (hl : p.Layout)
include hl

theorem Simulates.step {t : Trail} {c c' : Config} {calls : List (StmtId × MethodId)}
    {call : Option (StmtId × MethodId)} (h : Simulates p σ ls t c calls) (hs : Step p c call c') :
    ∃ ls' t', Simulates p σ ls' t' c' (call.toList ++ calls) := by
  cases hs with
  | advance hi he hs =>
    obtain ⟨ls', hle, hμ, hf⟩ := h.top.effect hl h.store hi he hs
    exact ⟨ls', t, hμ, hf, h.callers.mono hle, h.calls⟩
  | call hi he hd =>
    obtain ⟨t', hc, hthis⟩ := h.top.enters hl h.store hi he hd
    refine ⟨ls, t', h.store, h.top.entered hi hd hc hthis, .caller h.top hi hc h.callers, ?_⟩
    intro x hx
    rcases List.mem_cons.1 hx with rfl | hx
    · exact ⟨_, hc, rfl, rfl⟩
    · exact h.calls x hx
  | leave hi ha hcall hs =>
    cases h.callers with
    | caller hg _ hc hk =>
      have hg := (hg.pass hl hs).assign (h.top.returned hl hi ha hc hcall)
      exact ⟨ls, _, h.store, hg, hk, h.calls⟩

/-- Along a run the locations of the objects and the contexts of the activations can be chosen. -/
theorem exists_simulates {c : Config} {calls : List (StmtId × MethodId)} (h : Run p c calls) :
    ∃ ls t, Simulates p σ ls t c calls := by
  induction h with
  | start hm hd => exact ⟨[], [], simulates_initial hm hd⟩
  | step _ hs ih =>
    obtain ⟨ls, t, h⟩ := ih
    exact h.step hl hs

theorem Simulates.step_or_stopped {t : Trail} {c : Config} {calls : List (StmtId × MethodId)}
    (h : Simulates p σ ls t c calls) : (∃ call c', Step p c call c') ∨ Stopped p c := by
  obtain ⟨μ, f, k⟩ := c
  obtain ⟨d, hd, hs⟩ := h.top.site
  obtain ⟨i, hi⟩ := hl.instr_of_mem_nodes hd hs
  cases ha : result? f.locals i with
  | some a =>
    cases h.callers with
    | bottom => exact .inr (.returned hi ha)
    | caller hg hcall =>
      obtain ⟨s, hs⟩ := hg.exists_passes hl hcall (by simp)
      exact .inl ⟨_, _, .leave hi ha hcall hs⟩
  | none =>
    cases hcall : i.call? with
    | some call =>
      obtain rfl : i = .invoke call := by
        cases i <;> simp_all [Instr.call?]
      by_cases he : ∃ callee this, Enters p μ f.locals call callee this
      · obtain ⟨callee, this, he⟩ := he
        obtain ⟨d', hd'⟩ := he.method
        exact .inl ⟨_, _, .call hi he hd'⟩
      · exact .inr (.lost hi fun callee this he' => he ⟨callee, this, he'⟩)
    | none =>
      by_cases hb : ∃ b ∈ bases i, f.locals b = none
      · obtain ⟨b, hb, hn⟩ := hb
        exact .inr (.null hi hb hn)
      · have hbases : ∀ b ∈ bases i, f.locals b ≠ none := fun b hb' hn => hb ⟨b, hb', hn⟩
        have hinvoke : i.isInvoke = false := by rw [Instr.isInvoke, hcall]; rfl
        obtain ⟨μ', ρ', he⟩ := exists_effect_iff.2 ⟨hinvoke, ha, hbases⟩
        obtain ⟨s, hs⟩ := h.top.exists_passes hl hi fun hexit => by rw [hexit] at ha; cases ha
        exact .inl ⟨_, _, .advance hi he hs⟩

/-- A run goes on until main returns, an object is missing or a call finds no method. -/
theorem exists_step_iff {c : Config} {calls : List (StmtId × MethodId)} (h : Run p c calls) :
    (∃ call c', Step p c call c') ↔ ¬ Stopped p c := by
  obtain ⟨ls, t, hsim⟩ := exists_simulates (σ := .insensitive) hl h
  constructor
  · intro hs hstop
    obtain ⟨call, c', hs⟩ := hs
    exact hstop.not_step hs
  · intro hstop
    exact (hsim.step_or_stopped hl).resolve_right hstop

end

end ProgramFlow.PointsTo
