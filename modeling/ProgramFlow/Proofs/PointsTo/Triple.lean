import ProgramFlow.PointsTo.Solver
import ProgramFlow.Proofs.Iteration
/-!
What computations of the analysis ensure about the state they leave when they succeed, and what
they attain whether they succeed or fail, one construct at a time.
-/
namespace ProgramFlow.PointsTo.SolverM

variable {α β : Type} {s : State}

theorem run_eq {x : SolverM α} {r : Except AnalysisError α} (h : (x.run s).1 = r) :
    x.run s = (r, (x.run s).2) :=
  Prod.ext h rfl

theorem exists_run_eq {x : SolverM α} {a : α} (h : (x.run s).1 = .ok a) :
    ∃ s', x.run s = (.ok a, s') :=
  ⟨_, run_eq h⟩

/-- If the computation succeeds, its answer and the state it leaves satisfy `Q`. -/
def Ensures (x : SolverM α) (s : State) (Q : α → State → Prop) : Prop :=
  ∀ a s', x.run s = (.ok a, s') → Q a s'

namespace Ensures

theorem mono {x : SolverM α} {Q R : α → State → Prop} (h : x.Ensures s Q)
    (hQ : ∀ a s', Q a s' → R a s') : x.Ensures s R :=
  fun a s' hr => hQ a s' (h a s' hr)

theorem pure {a : α} {Q : α → State → Prop} (h : Q a s) : Ensures (pure a) s Q := by
  intro b s' hr
  cases hr
  exact h

theorem bind {x : SolverM α} {f : α → SolverM β} {P : α → State → Prop} {Q : β → State → Prop}
    (hx : x.Ensures s P) (hf : ∀ a s', P a s' → (f a).Ensures s' Q) : (x >>= f).Ensures s Q := by
  intro b s'' hr
  have hrun : (x >>= f).run s = ExceptT.bindCont f (x.run s).1 (x.run s).2 := rfl
  obtain ⟨r, s', hr'⟩ : ∃ r s', x.run s = (r, s') := ⟨_, _, rfl⟩
  rw [hrun, hr'] at hr
  cases r with
  | ok a => exact hf a s' (hx a s' hr') b s'' hr
  | error e => cases hr

section

variable {Q : β → State → Prop}

theorem lift_bind {o : Outcome α} {f : α → SolverM β} (h : ∀ a, o = .ok a → (f a).Ensures s Q) :
    Ensures (liftM o >>= f) s Q := by
  cases o with
  | ok a => exact h a rfl
  | error e =>
    intro b s' hr
    cases hr

theorem throw_bind {e : AnalysisError} {f : α → SolverM β} : Ensures (throw e >>= f) s Q := by
  intro b s' hr
  cases hr

theorem get_bind {f : State → SolverM β} (h : (f s).Ensures s Q) : Ensures (get >>= f) s Q := h

theorem modify_bind {g : State → State} {f : PUnit → SolverM β} (h : (f ⟨⟩).Ensures (g s) Q) :
    Ensures (modify g >>= f) s Q := h

theorem context_bind {id : ContextId} {f : Context → SolverM β}
    (h : ∀ x, s.elements.contexts.get? id = some x → (f x).Ensures s Q) :
    Ensures (context id >>= f) s Q :=
  lift_bind fun x hx => h x (fetch_eq_ok_iff.1 hx)

theorem object_bind {id : ObjCloneId} {f : ObjClone → SolverM β}
    (h : ∀ x, s.elements.objects.get? id = some x → (f x).Ensures s Q) :
    Ensures (object id >>= f) s Q :=
  lift_bind fun x hx => h x (fetch_eq_ok_iff.1 hx)

theorem method_bind {id : MethodCloneId} {f : MethodClone → SolverM β}
    (h : ∀ x, s.elements.methods.get? id = some x → (f x).Ensures s Q) :
    Ensures (method id >>= f) s Q :=
  lift_bind fun x hx => h x (fetch_eq_ok_iff.1 hx)

theorem obj_bind {id : ObjId} {f : Obj → SolverM β}
    (h : ∀ x, s.heap.get? id = some x → (f x).Ensures s Q) : Ensures (obj id >>= f) s Q :=
  lift_bind fun x hx => h x (fetch_eq_ok_iff.1 hx)

end

theorem modifyGet {f : State → α × State} {Q : α → State → Prop} (h : Q (f s).1 (f s).2) :
    Ensures (modifyGet f) s Q := by
  intro b s' hr
  cases hr
  exact h

theorem modify {f : State → State} {Q : PUnit → State → Prop} (h : Q ⟨⟩ (f s)) :
    Ensures (modify f) s Q := by
  intro b s' hr
  cases hr
  exact h

theorem yield {x : SolverM PUnit} {I : State → Prop} (h : x.Ensures s fun _ s' => I s') :
    Ensures (do x; Pure.pure (ForInStep.yield PUnit.unit)) s fun r s' => r = .yield ⟨⟩ ∧ I s' :=
  .bind h fun _ _ hs' => .pure ⟨rfl, hs'⟩

/-- A loop keeps an invariant about the items still to come. -/
theorem forIn {l : List α} {f : α → PUnit → SolverM (ForInStep PUnit)} {I : List α → State → Prop}
    (h : ∀ a l s, I (a :: l) s → (f a ⟨⟩).Ensures s fun r s' => r = .yield ⟨⟩ ∧ I l s')
    (hI : I l s) : Ensures (forIn l PUnit.unit f) s fun _ s' => I [] s' := by
  induction l generalizing s with
  | nil => exact pure hI
  | cons a l ih =>
    rw [List.forIn_cons]
    refine .bind (h a l s hI) ?_
    rintro _ s' ⟨rfl, hs'⟩
    exact ih hs'

theorem filterMapM {l : List α} {f : α → SolverM (Option β)} {I : List α → List β → State → Prop}
    (h : ∀ a l r s, I (a :: l) r s → (f a).Ensures s fun o s' => I l (r ++ o.toList) s')
    {r : List β} (hI : I l r s) : Ensures (l.filterMapM f) s fun r' s' => I [] (r ++ r') s' := by
  induction l generalizing s r with
  | nil => exact pure (by simpa using hI)
  | cons a l ih =>
    rw [List.filterMapM_cons]
    refine .bind (h a l r s hI) ?_
    intro o s' hs'
    cases o with
    | none => exact ih (by simpa using hs')
    | some b =>
      refine .bind (ih hs') ?_
      intro r' s'' hs''
      exact pure (by simpa using hs'')

theorem repeatWhile {body : SolverM Bool} {I : State → Prop} {Q : State → Prop} {rounds : Nat}
    (h : ∀ s, I s → body.Ensures s fun more s' => if more then I s' else Q s') (hI : I s) :
    Ensures (repeatWhile rounds body) s fun _ s' => Q s' := by
  intro _ s' hr
  simp only [SolverM.repeatWhile, ExceptT.run_mk] at hr
  split at hr
  · next r hfin =>
    have hsat := Progress.of_iterate hfin (P := I)
      (Q := fun r => r.1 = .ok () → Q r.2) (fun s hs => ?_) hI
    · subst hr
      exact hsat rfl
    · specialize h s hs
      split
      · next hb => exact h _ _ hb
      · next hb => exact fun _ => h _ _ hb
      · next hb => exact nofun
  · cases hr

end Ensures

/-- The computation succeeds, and its answer and the state it leaves satisfy `Q`; or it fails, and
its error and the state it leaves satisfy `E`. -/
def Attains (x : SolverM α) (s : State) (E : AnalysisError → State → Prop)
    (Q : α → State → Prop) : Prop :=
  (∃ a s', x.run s = (.ok a, s') ∧ Q a s') ∨ ∃ e s', x.run s = (.error e, s') ∧ E e s'

namespace Attains

variable {E : AnalysisError → State → Prop}

theorem imp {x : SolverM α} {Q R : α → State → Prop} {F : AnalysisError → State → Prop}
    (h : x.Attains s E Q) (hQ : ∀ a s', Q a s' → R a s') (hE : ∀ e s', E e s' → F e s') :
    x.Attains s F R := by
  obtain ⟨a, s', hr, h⟩ | ⟨e, s', hr, h⟩ := h
  · exact .inl ⟨a, s', hr, hQ a s' h⟩
  · exact .inr ⟨e, s', hr, hE e s' h⟩

theorem mono {x : SolverM α} {Q R : α → State → Prop} (h : x.Attains s E Q)
    (hQ : ∀ a s', Q a s' → R a s') : x.Attains s E R :=
  h.imp hQ fun _ _ => id

/-- A computation whose failures are excluded succeeds. -/
theorem exists_ok {x : SolverM α} {Q : α → State → Prop} (h : x.Attains s E Q)
    (hE : ∀ e s', ¬ E e s') : ∃ a s', x.run s = (.ok a, s') ∧ Q a s' :=
  h.resolve_right fun ⟨e, s', _, he⟩ => hE e s' he

theorem of_error {x : SolverM α} {Q : α → State → Prop} (h : x.Attains s E Q)
    {e : AnalysisError} {s' : State} (hr : x.run s = (.error e, s')) : E e s' := by
  obtain ⟨a, u, hr', -⟩ | ⟨e', u, hr', he⟩ := h
  · cases hr.symm.trans hr'
  · cases hr.symm.trans hr'
    exact he

/-- What a computation attains by succeeding includes what it ensures. -/
theorem and_ensures {x : SolverM α} {Q R : α → State → Prop} (h : x.Attains s E Q)
    (hx : x.Ensures s R) : x.Attains s E fun a s' => Q a s' ∧ R a s' := by
  obtain ⟨a, s', hr, h⟩ | h := h
  · exact .inl ⟨a, s', hr, h, hx a s' hr⟩
  · exact .inr h

theorem pure {a : α} {Q : α → State → Prop} (h : Q a s) : Attains (pure a) s E Q :=
  .inl ⟨a, s, rfl, h⟩

theorem bind {x : SolverM α} {f : α → SolverM β} {P : α → State → Prop} {Q : β → State → Prop}
    (hx : x.Attains s E P) (hf : ∀ a s', P a s' → (f a).Attains s' E Q) :
    (x >>= f).Attains s E Q := by
  have hrun : (x >>= f).run s = ExceptT.bindCont f (x.run s).1 (x.run s).2 := rfl
  obtain ⟨a, s', hr, hP⟩ | ⟨e, s', hr, he⟩ := hx
  · rw [hr] at hrun
    obtain ⟨b, s'', hr', hQ⟩ | ⟨e, s'', hr', he⟩ := hf a s' hP
    · exact .inl ⟨b, s'', hrun.trans hr', hQ⟩
    · exact .inr ⟨e, s'', hrun.trans hr', he⟩
  · rw [hr] at hrun
    exact .inr ⟨e, s', hrun, he⟩

section

variable {Q : β → State → Prop}

theorem lift_bind {o : Outcome α} {f : α → SolverM β} {a : α} (ho : o = .ok a)
    (h : (f a).Attains s E Q) : Attains (liftM o >>= f) s E Q := by
  subst ho
  exact h

theorem lift_error_bind {o : Outcome α} {f : α → SolverM β} {e : AnalysisError}
    (ho : o = .error e) (h : E e s) : Attains (liftM o >>= f) s E Q := by
  subst ho
  exact .inr ⟨e, s, rfl, h⟩

/-- A lookup may fail where the state is as a failure may leave it. -/
theorem attempt_bind {o : Outcome α} {f : α → SolverM β} (hE : ∀ e, E e s)
    (h : ∀ a, o = .ok a → (f a).Attains s E Q) : Attains (liftM o >>= f) s E Q := by
  cases o with
  | ok a => exact .lift_bind rfl (h a rfl)
  | error e => exact .lift_error_bind rfl (hE e)

theorem throw_bind {e : AnalysisError} {f : α → SolverM β} (h : E e s) :
    Attains (throw e >>= f) s E Q :=
  .inr ⟨e, s, rfl, h⟩

theorem get_bind {f : State → SolverM β} (h : (f s).Attains s E Q) :
    Attains (get >>= f) s E Q := h

theorem modify_bind {g : State → State} {f : PUnit → SolverM β} (h : (f ⟨⟩).Attains (g s) E Q) :
    Attains (modify g >>= f) s E Q := h

theorem context_bind {id : ContextId} {f : Context → SolverM β} {x : Context}
    (hx : s.elements.contexts.get? id = some x) (h : (f x).Attains s E Q) :
    Attains (context id >>= f) s E Q :=
  lift_bind (fetch_eq_ok_iff.2 hx) h

theorem object_bind {id : ObjCloneId} {f : ObjClone → SolverM β} {x : ObjClone}
    (hx : s.elements.objects.get? id = some x) (h : (f x).Attains s E Q) :
    Attains (object id >>= f) s E Q :=
  lift_bind (fetch_eq_ok_iff.2 hx) h

theorem method_bind {id : MethodCloneId} {f : MethodClone → SolverM β} {x : MethodClone}
    (hx : s.elements.methods.get? id = some x) (h : (f x).Attains s E Q) :
    Attains (method id >>= f) s E Q :=
  lift_bind (fetch_eq_ok_iff.2 hx) h

theorem obj_bind {id : ObjId} {f : Obj → SolverM β} {x : Obj} (hx : s.heap.get? id = some x)
    (h : (f x).Attains s E Q) : Attains (obj id >>= f) s E Q :=
  lift_bind (fetch_eq_ok_iff.2 hx) h

end

theorem modifyGet {f : State → α × State} {Q : α → State → Prop} (h : Q (f s).1 (f s).2) :
    Attains (modifyGet f) s E Q :=
  .inl ⟨_, _, rfl, h⟩

theorem modify {f : State → State} {Q : PUnit → State → Prop} (h : Q ⟨⟩ (f s)) :
    Attains (modify f) s E Q :=
  .inl ⟨_, _, rfl, h⟩

theorem yield {x : SolverM PUnit} {I : State → Prop} (h : x.Attains s E fun _ s' => I s') :
    Attains (do x; Pure.pure (ForInStep.yield PUnit.unit)) s E
      fun r s' => r = .yield ⟨⟩ ∧ I s' :=
  .bind h fun _ _ hs' => .pure ⟨rfl, hs'⟩

/-- A repetition whose rounds lower a measure ends within a budget above it. -/
theorem repeatWhile {body : SolverM Bool} {I Q : State → Prop} {m : State → Nat} {rounds : Nat}
    (h : ∀ s, I s → body.Attains s E fun more s' => if more then I s' ∧ m s' < m s else Q s')
    (hI : I s) (hm : m s + 1 < 2 ^ rounds) :
    Attains (repeatWhile rounds body) s E fun _ s' => Q s' := by
  have hends : ∃ r, (SolverM.repeatWhile rounds body).run s = r ∧
      (r.1 = .ok () ∧ Q r.2 ∨ ∃ e, r.1 = .error e ∧ E e r.2) := by
    simp only [SolverM.repeatWhile, ExceptT.run_mk]
    generalize hx : Progress.iterate _ rounds s = x
    obtain ⟨r, rfl, hr⟩ : ∃ r, x = .finished r ∧
        (r.1 = .ok () ∧ Q r.2 ∨ ∃ e, r.1 = .error e ∧ E e r.2) := by
      rw [← hx]
      apply Progress.iterate_ends rounds s hI hm
      intro s hs
      obtain ⟨more, s', hr, h⟩ | ⟨e, s', hr, he⟩ := h s hs
      · simp only [hr]
        cases more with
        | true => exact .inl ⟨s', rfl, h⟩
        | false => exact .inr ⟨_, rfl, .inl ⟨rfl, h⟩⟩
      · simp only [hr]
        exact .inr ⟨_, rfl, .inr ⟨e, rfl, he⟩⟩
    exact ⟨r, rfl, hr⟩
  obtain ⟨⟨_, s'⟩, hrun, ⟨rfl, hQ⟩ | ⟨e, rfl, he⟩⟩ := hends
  · exact .inl ⟨(), s', hrun, hQ⟩
  · exact .inr ⟨e, s', hrun, he⟩

/-- What the rounds keep, a repetition keeps even if it runs out of rounds. -/
theorem repeatWhile_keeps {body : SolverM Bool} {I : State → Prop} {rounds : Nat}
    (h : ∀ s, I s → body.Attains s (fun _ => I) fun _ => I) (hI : I s) :
    Attains (SolverM.repeatWhile rounds body) s (fun _ => I) fun _ => I := by
  have hkeeps : I ((SolverM.repeatWhile rounds body).run s).2 := by
    simp only [SolverM.repeatWhile, ExceptT.run_mk]
    generalize hx : Progress.iterate _ rounds s = x
    have hsat : x.Satisfies I fun r => I r.2 := by
      rw [← hx]
      refine Progress.iterate_satisfies (fun s hs => ?_) rounds s hI
      obtain ⟨more, s', hr, hs'⟩ | ⟨e, s', hr, hs'⟩ := h s hs
      · simp only [hr]
        cases more with
        | true => exact hs'
        | false => exact hs'
      · simp only [hr]
        exact hs'
    cases x with
    | running s' => exact hsat
    | finished r => exact hsat
  obtain ⟨answer, s', hr⟩ : ∃ answer s', (SolverM.repeatWhile rounds body).run s = (answer, s') :=
    ⟨_, _, rfl⟩
  rw [hr] at hkeeps
  cases answer with
  | ok a => exact .inl ⟨a, s', hr, hkeeps⟩
  | error e => exact .inr ⟨e, s', hr, hkeeps⟩

end Attains

end ProgramFlow.PointsTo.SolverM
