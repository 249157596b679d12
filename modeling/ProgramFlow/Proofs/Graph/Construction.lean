import Mathlib.Data.List.Perm.Subperm
import ProgramFlow.Proofs.Graph.Linkage
import ProgramFlow.Proofs.Iteration
/-!
A supergraph can be built for any entry methods and any calls whose methods are declared. The walk
that finds its methods ends, since each call is followed once at most, and it finds no methods but
those that the entry methods reach.
-/
namespace ProgramFlow

theorem countP_or {α : Type} {l : List α} {P Q : α → Bool}
    (h : ∀ a ∈ l, P a = true → Q a = false) :
    l.countP (fun a => P a || Q a) = l.countP P + l.countP Q := by
  induction l with
  | nil => rfl
  | cons a l ih =>
    rw [List.forall_mem_cons] at h
    simp only [List.countP_cons, ih h.2]
    grind

/-- Elements that satisfy one of two exclusive tests satisfy a test that both imply. -/
theorem countP_add_countP_le {α : Type} {l : List α} {P Q R : α → Bool}
    (hP : ∀ a ∈ l, P a = true → R a = true) (hQ : ∀ a ∈ l, Q a = true → R a = true)
    (hPQ : ∀ a ∈ l, P a = true → Q a = false) : l.countP P + l.countP Q ≤ l.countP R := by
  rw [← countP_or hPQ]
  refine List.countP_mono_left fun a ha h => ?_
  exact (Bool.or_eq_true_iff.1 h).elim (hP a ha) (hQ a ha)

namespace Program

variable {p : Program} {calls : List (StmtId × MethodId)} {entries : List MethodId}

theorem nodup_foldl_callees {site : StmtId} {ms : List MethodId} (h : ms.Nodup) :
    (calls.foldl (fun ms (s, m) => if s = site ∧ m ∉ ms then ms ++ [m] else ms) ms).Nodup := by
  induction calls generalizing ms with
  | nil => exact h
  | cons c calls ih =>
    rw [List.foldl_cons]
    apply ih
    dsimp only
    split
    · next hc =>
      refine List.nodup_append.2 ⟨h, by simp, fun x hx y hy hxy => hc.2 ?_⟩
      rwa [← List.mem_singleton.1 hy, ← hxy]
    · exact h

theorem nodup_givenCallees (site : StmtId) : (givenCallees calls site).Nodup :=
  nodup_foldl_callees .nil

theorem foldl_callees_eq {site : StmtId} {ms : List MethodId} (hnodup : calls.Nodup)
    (hms : ∀ m ∈ ms, (site, m) ∉ calls) :
    calls.foldl (fun ms (s, m) => if s = site ∧ m ∉ ms then ms ++ [m] else ms) ms =
      ms ++ (calls.filter (·.1 = site)).map Prod.snd := by
  induction calls generalizing ms with
  | nil => simp
  | cons c calls ih =>
    obtain ⟨s, m⟩ := c
    obtain ⟨hc, hnodup⟩ := List.nodup_cons.1 hnodup
    have hrest : ∀ m ∈ ms, (site, m) ∉ calls := fun m hm hmem => hms m hm (.tail _ hmem)
    rw [List.foldl_cons]
    dsimp only
    by_cases hs : s = site
    · subst hs
      have hm : m ∉ ms := fun hm => hms m hm (.head _)
      rw [if_pos ⟨rfl, hm⟩, ih hnodup, List.filter_cons_of_pos (by simp)]
      · simp
      · intro m' hm'
        rcases List.mem_append.1 hm' with hm' | hm'
        · exact hrest m' hm'
        · rwa [List.mem_singleton.1 hm']
    · rw [if_neg fun h => hs h.1, ih hnodup hrest, List.filter_cons_of_neg (by simpa using hs)]

/-- Calls that are given once each lead to their callees in the order given. -/
theorem givenCallees_eq (hnodup : calls.Nodup) (site : StmtId) :
    givenCallees calls site = (calls.filter (·.1 = site)).map Prod.snd :=
  (foldl_callees_eq hnodup fun _ hm => (List.not_mem_nil hm).elim).trans (List.nil_append _)

/-- Each given call leads to one callee at most. -/
theorem length_callees_le {l : List StmtId} (hl : l.Nodup) :
    (l.flatMap (givenCallees calls)).length ≤ calls.countP (·.1 ∈ l) := by
  let pairs := l.flatMap fun n => (givenCallees calls n).map (Prod.mk n)
  have hlength : (l.flatMap (givenCallees calls)).length = pairs.length := by
    simp [pairs, List.length_flatMap]
  have hnodup : pairs.Nodup := by
    refine List.nodup_flatMap.2 ⟨fun n _ => ?_, hl.imp fun {n n'} hne x hx hx' => hne ?_⟩
    · exact (nodup_givenCallees n).map fun _ _ h => (Prod.mk.inj h).2
    · obtain ⟨_, -, rfl⟩ := List.mem_map.1 hx
      obtain ⟨_, -, h⟩ := List.mem_map.1 hx'
      exact (Prod.mk.inj h).1.symm
  have hsub : pairs ⊆ calls.filter (·.1 ∈ l) := by
    intro x hx
    obtain ⟨n, hn, hx⟩ := List.mem_flatMap.1 hx
    obtain ⟨m, hm, rfl⟩ := List.mem_map.1 hx
    exact List.mem_filter.2 ⟨mem_givenCallees.1 hm, decide_eq_true hn⟩
  rw [hlength, List.countP_eq_length_filter]
  exact (hnodup.subperm hsub).length_le

/-- The method that a statement belongs to. -/
def owner? (p : Program) (s : StmtId) : Option MethodId := (p.stmt s).toOption.map (·.method)

theorem Layout.owner?_of_mem_body (hl : p.Layout) {m : MethodId} {d : MethodDecl}
    (hd : p.method m = .ok d) {s : StmtId} (hs : s ∈ d.body) : p.owner? s = some m := by
  obtain ⟨x, hx, rfl⟩ := hl.stmt_of_mem_body hd hs
  simp [owner?, hx, Except.toOption]

/-- The methods still to look at, and the calls of methods not found yet. -/
def MethodWalk.work (p : Program) (calls : List (StmtId × MethodId)) (w : MethodWalk) : Nat :=
  w.queue.length + calls.countP fun c => ∀ m ∈ w.found, p.owner? c.1 ≠ some m

theorem MethodWalk.work_visit (hl : p.Layout) {found queue : List MethodId} {m : MethodId}
    {d : MethodDecl} (hd : p.method m = .ok d) (hm : m ∉ found) :
    MethodWalk.work p calls ⟨found ++ [m], queue ++ d.body.flatMap (givenCallees calls)⟩ <
      MethodWalk.work p calls ⟨found, m :: queue⟩ := by
  have hcallees : (d.body.flatMap (givenCallees calls)).length ≤ calls.countP (·.1 ∈ d.body) :=
    length_callees_le d.nodup_body
  have hcount : calls.countP (·.1 ∈ d.body) +
      calls.countP (fun c => ∀ m' ∈ found ++ [m], p.owner? c.1 ≠ some m') ≤
      calls.countP fun c => ∀ m' ∈ found, p.owner? c.1 ≠ some m' := by
    apply countP_add_countP_le
    · intro c _ hc
      have howner := hl.owner?_of_mem_body hd (of_decide_eq_true hc)
      refine decide_eq_true fun m' hm' heq => hm ?_
      cases howner.symm.trans heq
      exact hm'
    · intro c _ hc
      exact decide_eq_true fun m' hm' => of_decide_eq_true hc m' (List.mem_append_left _ hm')
    · intro c _ hc
      have howner := hl.owner?_of_mem_body hd (of_decide_eq_true hc)
      exact decide_eq_false fun h => h m (List.mem_append_right _ (.head _)) howner
  simp only [work, List.length_append, List.length_cons]
  omega

section

variable (hl : p.Layout) (hentries : ∀ m ∈ entries, ∃ d, p.method m = .ok d)
  (hcalls : ∀ c ∈ calls, ∃ d, p.method c.2 = .ok d)
include hl hentries hcalls

theorem exists_reachableMethods : ∃ ms, p.reachableMethods entries calls = .ok ms := by
  obtain ⟨r, hr, ms, rfl⟩ : ∃ r, Progress.iterate (p.walkStep calls)
      (entries.length + calls.length + 2) ⟨[], entries⟩ = .finished r ∧ ∃ ms, r = .ok ms := by
    apply Progress.iterate_ends (P := fun w => ∀ m ∈ w.queue, ∃ d, p.method m = .ok d)
      (m := MethodWalk.work p calls)
    · exact hentries
    · have hcount := List.countP_le_length (l := calls)
        (p := fun c => decide (∀ m ∈ ([] : List MethodId), p.owner? c.1 ≠ some m))
      have hpow := Nat.lt_two_pow_self (n := entries.length + calls.length + 2)
      simp only [MethodWalk.work]
      omega
    · rintro ⟨found, _ | ⟨m, queue⟩⟩ hw
      · exact .inr ⟨_, rfl, found, rfl⟩
      · rw [List.forall_mem_cons] at hw
        obtain ⟨⟨d, hd⟩, hqueue⟩ := hw
        refine .inl ?_
        by_cases hm : m ∈ found
        · refine ⟨⟨found, queue⟩, by simp only [walkStep, if_pos hm], hqueue, ?_⟩
          simp only [MethodWalk.work, List.length_cons]
          omega
        · refine ⟨_, by simp only [walkStep, if_neg hm, hd], fun x hx => ?_,
            MethodWalk.work_visit hl hd hm⟩
          rcases List.mem_append.1 hx with hx | hx
          · exact hqueue x hx
          · obtain ⟨s, -, hs⟩ := List.mem_flatMap.1 hx
            exact hcalls _ (mem_givenCallees.1 hs)
  exact ⟨ms, by simp only [reachableMethods, hr]⟩

omit hl hentries in
theorem exists_linksAt (g : ControlFlowGraph) {n : StmtId} (hn : ∃ i, p.instr n = .ok i) :
    ∃ ls, p.linksAt calls g n = .ok ls := by
  obtain ⟨i, hi⟩ := hn
  simp only [linksAt, hi, Outcome.ok_bind]
  split
  · exact ⟨_, rfl⟩
  · next call _ =>
    have hthrough : ∀ callee ∈ givenCallees calls n, ∃ links : List Link, (do
        let decl ← p.method callee
        let back := (g.succs n).map fun site =>
          Link.mk (.ret n callee decl.returns call.lhs) decl.exit site
        return Link.mk (.call callee call.args decl.params) n decl.entry :: back) =
          (.ok links : Outcome (List Link)) := by
      intro callee hcallee
      obtain ⟨d, hd⟩ := hcalls _ (mem_givenCallees.1 hcallee)
      rw [hd]
      exact ⟨_, rfl⟩
    obtain ⟨through, hok⟩ := Outcome.exists_mapM hthrough
    exact ⟨_, by rw [hok]; rfl⟩

/-- The supergraph exists. -/
theorem exists_supergraph (hne : entries ≠ []) : ∃ g, p.supergraph entries calls = .ok g := by
  obtain ⟨ms, hms⟩ := exists_reachableMethods hl hentries hcalls
  have hw := walked_of_reachableMethods hms
  obtain ⟨graphs, hgraphs⟩ : ∃ graphs, ms.mapM p.controlFlow = .ok graphs := by
    apply Outcome.exists_mapM
    intro m hm
    obtain ⟨d, hd⟩ := hw.declared m hm
    obtain ⟨c, hc, -⟩ := hl.controlFlow hd
    exact ⟨c, hc⟩
  have hinstr : ∀ c ∈ graphs, ∀ n ∈ c.nodes, ∃ i, p.instr n = .ok i := by
    intro c hc n hn
    obtain ⟨m, -, hok⟩ := (Outcome.mem_of_mapM hgraphs).1 hc
    obtain ⟨d, hd, -, -, -, hnodes, -⟩ := hl.of_controlFlow hok
    exact hl.instr_of_mem_nodes hd (hnodes ▸ hn)
  obtain ⟨links, hlinks⟩ : ∃ links, graphs.mapM (fun g => g.nodes.mapM (p.linksAt calls g)) =
      .ok links :=
    Outcome.exists_mapM fun c hc => Outcome.exists_mapM fun n hn =>
      exists_linksAt hcalls c (hinstr c hc n hn)
  obtain ⟨sites, hsites⟩ : ∃ sites, (graphs.flatMap (·.nodes)).filterM (fun n => do
      return (← p.isInvoke n) && !(givenCallees calls n).isEmpty) = .ok sites := by
    let test (n : StmtId) : Bool :=
      (p.isInvoke n).toOption.getD false && !(givenCallees calls n).isEmpty
    refine ⟨_, Outcome.filterM_eq_ok.2 ⟨test, fun n hn => ?_, rfl⟩⟩
    obtain ⟨c, hc, hn⟩ := List.mem_flatMap.1 hn
    obtain ⟨i, hi⟩ := hinstr c hc n hn
    simp [test, isInvoke, hi, Except.toOption]
  refine ⟨⟨entries, graphs, links.flatten.flatten, .ofLinks _,
    sites.map fun n => (n, givenCallees calls n)⟩, ?_⟩
  unfold supergraph
  rw [if_neg (by simpa using hne)]
  exact Outcome.bind_eq_ok.2 ⟨ms, hms, Outcome.bind_eq_ok.2 ⟨graphs, hgraphs,
    Outcome.bind_eq_ok.2 ⟨links, hlinks, Outcome.bind_eq_ok.2 ⟨sites, hsites, rfl⟩⟩⟩⟩

end

/-- The walk stays in every set of methods that has the entries and is closed under the calls. -/
theorem forall_of_reachableMethods {S : MethodId → Prop} (hentries : ∀ m ∈ entries, S m)
    (hcalls : ∀ m, S m → ∀ d, p.method m = .ok d → ∀ s ∈ d.body, ∀ callee, (s, callee) ∈ calls →
      S callee) {ms : List MethodId} (h : p.reachableMethods entries calls = .ok ms) :
    ∀ m ∈ ms, S m := by
  unfold reachableMethods at h
  split at h
  · next r hr =>
    refine Progress.of_iterate hr (P := fun w => (∀ m ∈ w.found, S m) ∧ ∀ m ∈ w.queue, S m)
      (Q := fun r => ∀ ms, r = .ok ms → ∀ m ∈ ms, S m) ?_ ⟨by simp, hentries⟩ ms h
    rintro ⟨found, _ | ⟨m, queue⟩⟩ ⟨hfound, hqueue⟩
    · rintro ms ⟨⟩
      exact hfound
    · rw [List.forall_mem_cons] at hqueue
      obtain ⟨hm, hqueue⟩ := hqueue
      simp only [walkStep]
      split
      · exact ⟨hfound, hqueue⟩
      · split
        · rintro _ ⟨⟩
        · next d hd =>
          constructor
          · intro x hx
            rcases List.mem_append.1 hx with hx | hx
            · exact hfound x hx
            · rwa [List.mem_singleton.1 hx]
          · intro x hx
            rcases List.mem_append.1 hx with hx | hx
            · exact hqueue x hx
            · obtain ⟨s, hs, hx⟩ := List.mem_flatMap.1 hx
              exact hcalls m hm d hd s hs x (mem_givenCallees.1 hx)
  · cases h

end Program

end ProgramFlow
