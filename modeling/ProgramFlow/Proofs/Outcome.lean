import Mathlib.Data.List.Forall2
import ProgramFlow.Error
/-!
Computations that may fail: when they succeed, one constructor and one traversal at a time.
-/
namespace ProgramFlow

/-- If not all items satisfy a predicate, there is a first one that does not. -/
theorem exists_first {α : Type} {P : α → Prop} {l : List α} (h : ∃ a ∈ l, ¬ P a) :
    ∃ r a r', l = r ++ a :: r' ∧ ¬ P a ∧ ∀ b ∈ r, P b := by
  induction l with
  | nil =>
    obtain ⟨a, ha, -⟩ := h
    cases ha
  | cons a l ih =>
    by_cases ha : P a
    · obtain ⟨r, b, r', rfl, hb, hr⟩ := ih (by simpa [ha] using h)
      exact ⟨a :: r, b, r', rfl, hb, List.forall_mem_cons.2 ⟨ha, hr⟩⟩
    · exact ⟨[], a, l, rfl, ha, by simp⟩

namespace Outcome

variable {α β : Type}

@[simp] theorem pure_eq (a : α) : (pure a : Outcome α) = .ok a := rfl

@[simp] theorem throw_eq (e : AnalysisError) : (throw e : Outcome α) = .error e := rfl

@[simp] theorem ok_bind (a : α) (f : α → Outcome β) : (Except.ok a >>= f : Outcome β) = f a := rfl

@[simp] theorem error_bind (e : AnalysisError) (f : α → Outcome β) :
    (Except.error e >>= f : Outcome β) = .error e := rfl

@[simp] theorem map_ok (f : α → β) (a : α) : (f <$> Except.ok a : Outcome β) = .ok (f a) := rfl

@[simp] theorem map_error (f : α → β) (e : AnalysisError) :
    (f <$> Except.error e : Outcome β) = .error e := rfl

theorem bind_eq_ok {x : Outcome α} {f : α → Outcome β} {b : β} :
    (x >>= f) = .ok b ↔ ∃ a, x = .ok a ∧ f a = .ok b := by
  cases x with
  | error e => simp
  | ok a => simp

theorem map_eq_ok {x : Outcome α} {f : α → β} {b : β} :
    f <$> x = .ok b ↔ ∃ a, x = .ok a ∧ f a = b := by
  cases x with
  | error e => simp
  | ok a => simp

theorem exists_map_eq_ok {x : Outcome α} {f : α → β} :
    (∃ b, f <$> x = .ok b) ↔ ∃ a, x = .ok a := by
  cases x with
  | error e => simp
  | ok a => simp

theorem forM_eq_ok {l : List α} {f : α → Outcome Unit} :
    l.forM f = .ok () ↔ ∀ a ∈ l, f a = .ok () := by
  induction l with
  | nil => simp
  | cons a l ih =>
    simp only [List.forM_eq_forM] at ih ⊢
    rw [List.forM_cons, bind_eq_ok, List.forall_mem_cons, ← ih]
    exact ⟨fun ⟨_, ha, hl⟩ => ⟨ha, hl⟩, fun ⟨ha, hl⟩ => ⟨_, ha, hl⟩⟩

theorem exists_of_forM_eq_error {l : List α} {f : α → Outcome Unit} {e : AnalysisError}
    (h : l.forM f = .error e) : ∃ a ∈ l, f a = .error e := by
  induction l with
  | nil => cases h
  | cons a l ih =>
    simp only [List.forM_eq_forM, List.forM_cons] at h ih
    cases ha : f a with
    | error e' =>
      rw [ha] at h
      cases h
      exact ⟨a, .head _, ha⟩
    | ok u =>
      rw [ha, ok_bind] at h
      obtain ⟨b, hb, he⟩ := ih h
      exact ⟨b, .tail _ hb, he⟩

theorem mapM_eq_ok {l : List α} {f : α → Outcome β} {r : List β} :
    l.mapM f = .ok r ↔ List.Forall₂ (fun a b => f a = .ok b) l r := by
  induction l generalizing r with
  | nil => simp [eq_comm]
  | cons a l ih =>
    simp only [List.mapM_cons, bind_eq_ok, ih, pure_eq, Except.ok.injEq]
    constructor
    · rintro ⟨b, hb, bs, hbs, rfl⟩
      exact .cons hb hbs
    · rintro (_ | ⟨hb, hbs⟩)
      exact ⟨_, hb, _, hbs, rfl⟩

/-- A traversal succeeds if every item does, with the answers of the items. -/
theorem mapM_eq_ok_iff {l : List α} {f : α → Outcome β} {P : α → Prop} {g : α → β}
    (h : ∀ a b, f a = .ok b ↔ P a ∧ b = g a) {r : List β} :
    l.mapM f = .ok r ↔ (∀ a ∈ l, P a) ∧ r = l.map g := by
  induction l generalizing r with
  | nil => simp [eq_comm]
  | cons a l ih =>
    simp only [List.mapM_cons, bind_eq_ok, h, ih, pure_eq, Except.ok.injEq]
    constructor
    · rintro ⟨_, ⟨ha, rfl⟩, _, ⟨hl, rfl⟩, rfl⟩
      exact ⟨List.forall_mem_cons.2 ⟨ha, hl⟩, rfl⟩
    · rintro ⟨hl, rfl⟩
      rw [List.forall_mem_cons] at hl
      exact ⟨_, ⟨hl.1, rfl⟩, _, ⟨hl.2, rfl⟩, rfl⟩

/-- The answers of a traversal are those of the items, in order. -/
theorem exists_map_of_mapM [Inhabited β] {l : List α} {f : α → Outcome β} {r : List β}
    (h : l.mapM f = .ok r) : ∃ g : α → β, (∀ a ∈ l, f a = .ok (g a)) ∧ r = l.map g := by
  refine ⟨fun a => (f a).toOption.getD default, ?_⟩
  induction mapM_eq_ok.1 h with
  | nil => simp
  | @cons a b l r hb hr ih =>
    obtain ⟨hl, rfl⟩ := ih (mapM_eq_ok.2 hr)
    exact ⟨List.forall_mem_cons.2 ⟨by simp [hb, Except.toOption], hl⟩,
      by simp [hb, Except.toOption]⟩

theorem exists_mapM {l : List α} {f : α → Outcome β} (h : ∀ a ∈ l, ∃ b, f a = .ok b) :
    ∃ r, l.mapM f = .ok r := by
  induction l with
  | nil => exact ⟨[], rfl⟩
  | cons a l ih =>
    obtain ⟨b, hb⟩ := h a (.head _)
    obtain ⟨r, hr⟩ := ih fun x hx => h x (.tail _ hx)
    exact ⟨b :: r, by simp [hb, hr]⟩

theorem mem_of_mapM {l : List α} {f : α → Outcome β} {r : List β} (h : l.mapM f = .ok r) {b : β} :
    b ∈ r ↔ ∃ a ∈ l, f a = .ok b := by
  induction l generalizing r with
  | nil =>
    cases mapM_eq_ok.1 h
    simp
  | cons a l ih =>
    rw [List.mapM_cons, bind_eq_ok] at h
    obtain ⟨c, hc, h⟩ := h
    obtain ⟨cs, hcs, h⟩ := bind_eq_ok.1 h
    cases h
    rw [List.mem_cons, ih hcs, List.exists_mem_cons_iff]
    exact or_congr_left ⟨fun h => h ▸ hc, fun h => Except.ok.inj (h.symm.trans hc)⟩

theorem filterMapM_eq_ok {l : List α} {f : α → Outcome (Option β)} {r : List β} :
    l.filterMapM f = .ok r ↔
      ∃ g : α → Option β, (∀ a ∈ l, f a = .ok (g a)) ∧ r = l.filterMap g := by
  constructor
  · intro h
    refine ⟨fun a => (f a).toOption.join, ?_⟩
    induction l generalizing r with
    | nil =>
      simp only [List.filterMapM_nil, pure_eq, Except.ok.injEq] at h
      simp [← h]
    | cons a l ih =>
      rw [List.filterMapM_cons, bind_eq_ok] at h
      obtain ⟨o, ha, h⟩ := h
      cases o with
      | none =>
        obtain ⟨hl, hr⟩ := ih h
        exact ⟨List.forall_mem_cons.2 ⟨by simp [ha, Except.toOption], hl⟩,
          by simp [ha, Except.toOption, hr]⟩
      | some b =>
        obtain ⟨bs, h, hbs⟩ := bind_eq_ok.1 h
        obtain ⟨hl, hr⟩ := ih h
        cases hbs
        exact ⟨List.forall_mem_cons.2 ⟨by simp [ha, Except.toOption], hl⟩,
          by simp [ha, Except.toOption, hr]⟩
  · rintro ⟨g, hg, rfl⟩
    induction l with
    | nil => rfl
    | cons a l ih =>
      rw [List.forall_mem_cons] at hg
      rw [List.filterMapM_cons, hg.1, ok_bind, ih hg.2, List.filterMap_cons]
      cases g a <;> rfl

theorem exists_filterMapM {l : List α} {f : α → Outcome (Option β)}
    (h : ∀ a ∈ l, ∃ o, f a = .ok o) : ∃ r, l.filterMapM f = .ok r := by
  choose! g hg using h
  exact ⟨_, filterMapM_eq_ok.2 ⟨g, hg, rfl⟩⟩

/-- A traversal fails at the first item that fails. -/
theorem filterMapM_eq_error {l l' : List α} {a : α} {f : α → Outcome (Option β)}
    {e : AnalysisError} (h : ∀ b ∈ l, ∃ o, f b = .ok o) (ha : f a = .error e) :
    (l ++ a :: l').filterMapM f = .error e := by
  induction l with
  | nil => rw [List.nil_append, List.filterMapM_cons, ha, error_bind]
  | cons b l ih =>
    rw [List.forall_mem_cons] at h
    obtain ⟨⟨o, hb⟩, hl⟩ := h
    rw [List.cons_append, List.filterMapM_cons, hb, ok_bind, ih hl]
    cases o <;> rfl

theorem filterAuxM_eq_ok {l acc r : List α} {f : α → Outcome Bool} :
    l.filterAuxM f acc = .ok r ↔
      ∃ g : α → Bool, (∀ a ∈ l, f a = .ok (g a)) ∧ r = (l.filter g).reverse ++ acc := by
  constructor
  · intro h
    refine ⟨fun a => (f a).toOption.getD false, ?_⟩
    induction l generalizing acc with
    | nil =>
      simp only [List.filterAuxM, pure_eq, Except.ok.injEq] at h
      simp [h]
    | cons a l ih =>
      obtain ⟨b, ha, h⟩ := bind_eq_ok.1 h
      obtain ⟨hl, hr⟩ := ih h
      refine ⟨List.forall_mem_cons.2 ⟨by simp [ha, Except.toOption], hl⟩, ?_⟩
      cases b <;> simp [ha, Except.toOption, hr]
  · rintro ⟨g, hg, rfl⟩
    induction l generalizing acc with
    | nil => rfl
    | cons a l ih =>
      rw [List.forall_mem_cons] at hg
      rw [List.filterAuxM, hg.1, ok_bind, ih hg.2]
      cases h : g a <;> simp [h]

theorem filterM_eq_ok {l r : List α} {f : α → Outcome Bool} :
    l.filterM f = .ok r ↔ ∃ g : α → Bool, (∀ a ∈ l, f a = .ok (g a)) ∧ r = l.filter g := by
  simp only [List.filterM, bind_eq_ok, filterAuxM_eq_ok, pure_eq, Except.ok.injEq]
  constructor
  · rintro ⟨_, ⟨g, hg, rfl⟩, rfl⟩
    exact ⟨g, hg, by simp⟩
  · rintro ⟨g, hg, rfl⟩
    exact ⟨_, ⟨g, hg, rfl⟩, by simp⟩

/-- A fold whose steps succeed is a fold of their answers. -/
theorem foldlM_eq_ok {l : List α} {f : β → α → Outcome β} {g : β → α → β}
    (h : ∀ a ∈ l, ∀ b, f b a = .ok (g b a)) (b : β) : l.foldlM f b = .ok (l.foldl g b) := by
  induction l generalizing b with
  | nil => rfl
  | cons a l ih =>
    rw [List.foldlM_cons, h a (.head _), ok_bind]
    exact ih (fun x hx => h x (.tail _ hx)) _

/-- What each step of a fold keeps about the items behind it holds of all items at its end. -/
theorem foldlM_induction {Q : List α → β → Prop} {l : List α} {f : β → α → Outcome β}
    (h : ∀ k b, Q k b → ∀ a ∈ l, ∃ c, f b a = .ok c ∧ Q (k ++ [a]) c) {k : List α} {b : β}
    (hb : Q k b) : ∃ c, l.foldlM f b = .ok c ∧ Q (k ++ l) c := by
  induction l generalizing k b with
  | nil => exact ⟨b, rfl, by simpa using hb⟩
  | cons a l ih =>
    obtain ⟨c, hc, hQ⟩ := h k b hb a (.head _)
    obtain ⟨r, hr, hQ⟩ := ih (fun k b hb x hx => h k b hb x (.tail _ hx)) hQ
    refine ⟨r, by simp [hc, hr], ?_⟩
    rwa [List.append_assoc, List.singleton_append] at hQ

/-- What each step of a fold keeps if it succeeds holds at the end of the fold. -/
theorem foldlM_keeps {Q : β → Prop} {l : List α} {f : β → α → Outcome β}
    (h : ∀ b, Q b → ∀ a ∈ l, ∀ c, f b a = .ok c → Q c) {b r : β} (hb : Q b)
    (hr : l.foldlM f b = .ok r) : Q r := by
  induction l generalizing b with
  | nil =>
    cases hr
    exact hb
  | cons a l ih =>
    rw [List.foldlM_cons] at hr
    obtain ⟨c, hc, hr⟩ := bind_eq_ok.1 hr
    exact ih (fun b hb x hx => h b hb x (.tail _ hx)) (h b hb a (.head _) c hc) hr

/-- A fold fails at the first item whose step fails. -/
theorem foldlM_eq_error {Q : β → Prop} {l l' : List α} {a : α} {f : β → α → Outcome β}
    {e : AnalysisError} (h : ∀ b, Q b → ∀ a ∈ l, ∃ c, f b a = .ok c ∧ Q c)
    (ha : ∀ b, Q b → f b a = .error e) {b : β} (hb : Q b) :
    (l ++ a :: l').foldlM f b = .error e := by
  obtain ⟨c, hc, hQ⟩ := foldlM_induction (Q := fun _ => Q) (fun _ => h) (k := []) hb
  rw [List.foldlM_append, hc, ok_bind, List.foldlM_cons, ha c hQ, error_bind]

end Outcome

end ProgramFlow
