/-!
First-in, first-out queues. What arrives is kept in reverse until the front has been used up.
-/
namespace ProgramFlow

structure Queue (α : Type) where
  front : List α := []
  back : List α := []

namespace Queue

variable {α : Type}

instance : EmptyCollection (Queue α) := ⟨{}⟩

/-- The items in the order in which they leave. -/
def toList (q : Queue α) : List α := q.front ++ q.back.reverse

def isEmpty (q : Queue α) : Bool := q.front.isEmpty && q.back.isEmpty

def push (q : Queue α) (a : α) : Queue α := { q with back := a :: q.back }

def pushAll (q : Queue α) (l : List α) : Queue α := { q with back := l.reverseAux q.back }

/-- The first item, and the queue without it. -/
def pop? (q : Queue α) : Option (α × Queue α) :=
  match q.front with
  | a :: front => some (a, { q with front })
  | [] =>
    match q.back.reverse with
    | a :: front => some (a, ⟨front, []⟩)
    | [] => none

@[simp] theorem toList_empty : (∅ : Queue α).toList = [] := rfl

@[simp] theorem toList_push (q : Queue α) (a : α) : (q.push a).toList = q.toList ++ [a] := by
  simp [toList, push]

@[simp] theorem toList_pushAll (q : Queue α) (l : List α) :
    (q.pushAll l).toList = q.toList ++ l := by
  simp [toList, pushAll, List.reverseAux_eq]

theorem pop?_eq_none_iff {q : Queue α} : q.pop? = none ↔ q.toList = [] := by
  obtain ⟨front, back⟩ := q
  cases front with
  | cons => simp [pop?, toList]
  | nil =>
    simp only [pop?, toList, List.nil_append]
    split <;> simp_all

theorem toList_of_pop?_eq_some {q r : Queue α} {a : α} (h : q.pop? = some (a, r)) :
    q.toList = a :: r.toList := by
  obtain ⟨front, back⟩ := q
  cases front with
  | cons =>
    simp only [pop?, Option.some.injEq, Prod.mk.injEq] at h
    obtain ⟨rfl, rfl⟩ := h
    simp [toList]
  | nil =>
    simp only [pop?] at h
    split at h
    · next b front hb =>
      simp only [Option.some.injEq, Prod.mk.injEq] at h
      obtain ⟨rfl, rfl⟩ := h
      simp [toList, hb]
    · cases h

end Queue

end ProgramFlow
