import ProgramFlow.PointsTo.Elements
import ProgramFlow.Proofs.Collection.Numbering
import ProgramFlow.Proofs.PointsTo.Reading
/-!
The numbers of program elements. Over any run of operations each kind of element is numbered in the
order of first use, a number keeps its meaning, and the objects of a pointer are what the changes to
this pointer have made of the empty set. Allocated objects are numbered by their sites.
-/
namespace ProgramFlow.PointsTo

namespace Elements

/-- What can be done with the elements: an element is numbered unless it has a number, a number is
looked up, an element is found if it has a number, the objects of a pointer are read or changed. -/
inductive Operation
  | emptyContext
  | context (c : Context)
  | object (o : ObjClone)
  | method (m : MethodClone)
  | callSite (c : CallClone)
  | pointer (x : Pointer)
  | contextAt (id : ContextId)
  | objectAt (id : ObjCloneId)
  | methodAt (id : MethodCloneId)
  | callSiteAt (id : CallCloneId)
  | pointerAt (id : PointerId)
  | findContext (c : Context)
  | findPointer (x : Pointer)
  | objectsAt (id : PointerId)
  | change (id : PointerId) (f : ObjSet → ObjSet)
  | pointers
  | sizes

namespace Operation

/-- What kind of answer an operation has. -/
abbrev Answer : Operation → Type
  | emptyContext => ContextId
  | context _ => ContextId
  | object _ => ObjCloneId
  | method _ => MethodCloneId
  | callSite _ => CallCloneId
  | pointer _ => PointerId
  | contextAt _ => Context
  | objectAt _ => ObjClone
  | methodAt _ => MethodClone
  | callSiteAt _ => CallClone
  | pointerAt _ => Pointer
  | findContext _ => Option ContextId
  | findPointer _ => Option PointerId
  | objectsAt _ => ObjSet
  | change _ _ => Unit
  | pointers => List (PointerId × Pointer × ObjSet)
  | sizes => Nat × Nat × Nat × Nat

/-- An operation on a number that names nothing fails. -/
def perform (e : Elements) : (q : Operation) → Outcome (q.Answer × Elements)
  | emptyContext => .ok (Elements.emptyContext, e)
  | context c => .ok (e.context c)
  | object o => .ok (e.object o)
  | method m => .ok (e.method m)
  | callSite c => .ok (e.callSite c)
  | pointer x => .ok (e.pointer x)
  | contextAt id => (e.contexts.row id).map (·, e)
  | objectAt id => (e.objects.row id).map (·, e)
  | methodAt id => (e.methods.row id).map (·, e)
  | callSiteAt id => (e.callSites.row id).map (·, e)
  | pointerAt id => (e.pointers.name id).map (·, e)
  | findContext c => .ok (e.contexts.find? c, e)
  | findPointer x => .ok (e.pointers.find? x, e)
  | objectsAt id => (e.pointers.objects id).map (·, e)
  | change id f => (e.pointers.objects id).map fun objs => ((), e.setObjects id (f objs))
  | pointers => .ok (e.pointers.toList, e)
  | sizes => .ok ((e.contexts.size, e.objects.size, e.methods.size, e.pointers.size), e)

end Operation

/-- The elements that were asked for with the numbers that were answered, and the changes to the
objects of pointers, in order. -/
structure Log where
  /-- New elements have numbered the empty context already. -/
  contexts : List (Context × ContextId) := [(.empty, emptyContext)]
  objects : List (ObjClone × ObjCloneId) := []
  methods : List (MethodClone × MethodCloneId) := []
  callSites : List (CallClone × CallCloneId) := []
  pointers : List (Pointer × PointerId) := []
  changes : List (PointerId × (ObjSet → ObjSet)) := []

namespace Log

def record (log : Log) : (q : Operation) → q.Answer → Log
  | .context c, id => { log with contexts := log.contexts ++ [(c, id)] }
  | .object o, id => { log with objects := log.objects ++ [(o, id)] }
  | .method m, id => { log with methods := log.methods ++ [(m, id)] }
  | .callSite c, id => { log with callSites := log.callSites ++ [(c, id)] }
  | .pointer x, id => { log with pointers := log.pointers ++ [(x, id)] }
  | .change id f, _ => { log with changes := log.changes ++ [(id, f)] }
  | _, _ => log

/-- What the changes to the pointer make of the empty set. -/
def objectsOf (log : Log) (id : PointerId) : ObjSet :=
  log.changes.foldl (fun objs change => if change.1 = id then change.2 objs else objs) ∅

theorem objectsOf_record_change (log : Log) (id other : PointerId) (f : ObjSet → ObjSet) :
    (log.record (.change id f) ()).objectsOf other =
      if id = other then f (log.objectsOf other) else log.objectsOf other :=
  List.foldl_append

/-- The number that the operation is about, if there is one, has been given. -/
def Covers (log : Log) : Operation → Prop
  | .contextAt id => ∃ c, (c, id) ∈ log.contexts
  | .objectAt id => ∃ o, (o, id) ∈ log.objects
  | .methodAt id => ∃ m, (m, id) ∈ log.methods
  | .callSiteAt id => ∃ c, (c, id) ∈ log.callSites
  | .pointerAt id | .objectsAt id | .change id _ => ∃ x, (x, id) ∈ log.pointers
  | _ => True

end Log

/-- Performs an operation and notes what it has answered or changed; one that fails does nothing. -/
def performNext (s : Log × Elements) (q : Operation) : Log × Elements :=
  match q.perform s.2 with
  | .ok (answer, e) => (s.1.record q answer, e)
  | .error _ => s

/-- Performs operations one after the other on new elements. -/
def performAll (qs : List Operation) : Log × Elements := qs.foldl performNext ({}, .initial)

/-- The elements are what the log says. -/
structure Logged (e : Elements) (log : Log) : Prop where
  contexts : e.contexts.Answered log.contexts
  objects : e.objects.Answered log.objects
  methods : e.methods.Answered log.methods
  callSites : e.callSites.Answered log.callSites
  pointers : e.pointers.names.Answered log.pointers
  inStep : e.pointers.InStep
  objectsOf : ∀ id, e.objectsOf id = log.objectsOf id
  empty : (Context.empty, Elements.emptyContext) ∈ log.contexts

namespace Logged

variable {e e' : Elements} {log : Log}

theorem initial : Elements.initial.Logged {} where
  contexts := Numbering.Answered.empty.ensure Context.empty
  objects := .empty
  methods := .empty
  callSites := .empty
  pointers := .empty
  inStep := PointerTable.inStep_empty
  objectsOf _ := rfl
  empty := .head _

/-- A set that is found is what the log says. -/
theorem of_objects (h : e.Logged log) {id : PointerId} {objs : ObjSet}
    (hobjs : e.pointers.objects id = .ok objs) :
    id.index < e.pointers.sets.size ∧ objs = log.objectsOf id := by
  have hget := fetch_eq_ok_iff.1 hobjs
  obtain ⟨hlt, -⟩ := Array.getElem?_eq_some_iff.1 hget
  rw [← h.objectsOf, Elements.objectsOf, PointerTable.objectsOf, hget]
  exact ⟨hlt, rfl⟩

theorem change (h : e.Logged log) {id : PointerId} {objs : ObjSet}
    (hobjs : e.pointers.objects id = .ok objs) (f : ObjSet → ObjSet) :
    (e.setObjects id (f objs)).Logged (log.record (.change id f) ()) where
  __ := h
  inStep := h.inStep.setObjects ..
  objectsOf other := by
    obtain ⟨hlt, rfl⟩ := h.of_objects hobjs
    rw [e.objectsOf_setObjects hlt, log.objectsOf_record_change, h.objectsOf]
    split
    · next heq => rw [heq]
    · rfl

/-- An operation keeps the elements and the log in step and takes back no number. -/
theorem perform (h : e.Logged log) {q : Operation} {answer : q.Answer}
    (hq : q.perform e = .ok (answer, e')) : e'.Logged (log.record q answer) ∧ e.Extends e' := by
  cases q with
  | context c =>
    cases hq
    exact ⟨{ h with
      contexts := h.contexts.ensure c
      empty := List.mem_append_left _ h.empty }, .context e c⟩
  | object o =>
    cases hq
    exact ⟨{ h with objects := h.objects.ensure o }, .object e o⟩
  | method m =>
    cases hq
    exact ⟨{ h with methods := h.methods.ensure m }, .method e m⟩
  | callSite c =>
    cases hq
    exact ⟨{ h with callSites := h.callSites.ensure c }, .callSite e c⟩
  | pointer x =>
    cases hq
    exact ⟨{ h with
      pointers := h.pointers.ensure x
      inStep := h.inStep.ensure x
      objectsOf := fun id => (e.objectsOf_pointer x id).trans (h.objectsOf id) }, .pointer e x⟩
  | change id f =>
    obtain ⟨objs, hobjs, heq⟩ := Outcome.map_eq_ok.1 hq
    cases heq
    exact ⟨h.change hobjs f, .setObjects e id (f objs)⟩
  | contextAt | objectAt | methodAt | callSiteAt | pointerAt | objectsAt =>
    obtain ⟨r, -, heq⟩ := Outcome.map_eq_ok.1 hq
    cases heq
    exact ⟨h, .refl e⟩
  | emptyContext | findContext | findPointer | pointers | sizes =>
    cases hq
    exact ⟨h, .refl e⟩

theorem performNext {s : Log × Elements} (h : s.2.Logged s.1) (q : Operation) :
    (performNext s q).2.Logged (performNext s q).1 ∧ s.2.Extends (performNext s q).2 := by
  unfold Elements.performNext
  split
  · next answer e hq => exact h.perform hq
  · exact ⟨h, .refl s.2⟩

theorem foldl {s : Log × Elements} (h : s.2.Logged s.1) (qs : List Operation) :
    (qs.foldl Elements.performNext s).2.Logged (qs.foldl Elements.performNext s).1 ∧
      s.2.Extends (qs.foldl Elements.performNext s).2 := by
  induction qs generalizing s with
  | nil => exact ⟨h, .refl s.2⟩
  | cons q qs ih =>
    obtain ⟨hnext, hextends⟩ := h.performNext q
    obtain ⟨hlast, hrest⟩ := ih hnext
    exact ⟨hlast, hextends.trans hrest⟩

end Logged

/-- What the elements tell after the operations in the log. -/
structure Keeps (e : Elements) (log : Log) : Prop where
  contexts : e.contexts.Names log.contexts
  objects : e.objects.Names log.objects
  methods : e.methods.Names log.methods
  callSites : e.callSites.Names log.callSites
  pointers : e.pointers.names.Names log.pointers
  inStep : e.pointers.InStep
  emptyContext : (Operation.contextAt Elements.emptyContext).perform e = .ok (Context.empty, e) ∧
    (Operation.context .empty).perform e = .ok (Elements.emptyContext, e)
  findContext : ∀ c, ∃ found, (Operation.findContext c).perform e = .ok (found, e) ∧
    ∀ id, found = some id ↔ (c, id) ∈ log.contexts
  findPointer : ∀ x, ∃ found, (Operation.findPointer x).perform e = .ok (found, e) ∧
    ∀ id, found = some id ↔ (x, id) ∈ log.pointers
  /-- The set of a pointer was empty at first, and nothing but its own changes is in it. -/
  objectsOf : ∀ {x id}, (x, id) ∈ log.pointers →
    e.pointers.name id = .ok x ∧ e.pointers.objects id = .ok (log.objectsOf id)
  /-- The pointers are listed in the order of first use, each with its own set. -/
  listed : e.pointers.toList = log.pointers.eraseDups.map fun p => (p.2, p.1, log.objectsOf p.2)
  listed_once : (e.pointers.toList.map fun p => p.2.1).Nodup
  /-- Operations fail on numbers that were never given, and only on these. -/
  perform : ∀ q : Operation, (∃ r, q.perform e = .ok r) ↔ log.Covers q

theorem Logged.keeps {e : Elements} {log : Log} (h : e.Logged log) : e.Keeps log where
  contexts := h.contexts.names
  objects := h.objects.names
  methods := h.methods.names
  callSites := h.callSites.names
  pointers := h.pointers.names
  inStep := h.inStep
  emptyContext := by
    obtain ⟨_, hrow, rfl⟩ := h.contexts.names.row.2 h.empty
    have hensure : e.contexts.ensure Context.empty = (Elements.emptyContext, e.contexts) :=
      Numbering.ensure_of_find? (h.contexts.names.find?.2 h.empty)
    constructor
    · rw [Operation.perform, hrow]
      rfl
    · rw [Operation.perform, Elements.context, hensure]
  findContext _ := ⟨_, rfl, fun _ => h.contexts.names.find?⟩
  findPointer _ := ⟨_, rfl, fun _ => h.pointers.names.find?⟩
  objectsOf {x id} hx := by
    obtain ⟨_, hrow, rfl⟩ := h.pointers.names.row.2 hx
    refine ⟨hrow, ?_⟩
    rw [h.inStep.objects (Numbering.row_eq_ok_iff.1 hrow)]
    exact congrArg _ (h.objectsOf id)
  listed := by
    calc e.pointers.toList
        = e.pointers.names.toList.map fun p => (p.1, p.2, log.objectsOf p.1) := by
          rw [h.inStep.toList_eq]
          exact List.map_congr_left fun p _ => by rw [← h.objectsOf]; rfl
      _ = (e.pointers.names.toList.map fun p => (p.2, p.1)).map fun p =>
            (p.2, p.1, log.objectsOf p.2) := by
          rw [List.map_map]
          rfl
      _ = log.pointers.eraseDups.map fun p => (p.2, p.1, log.objectsOf p.2) :=
          congrArg (List.map _) h.pointers.names.toList
  listed_once := by
    rw [h.inStep.toList_eq, List.map_map]
    exact e.pointers.names.map_key_toList ▸ e.pointers.names.nodup_keys
  perform q := by
    cases q with
    | contextAt => exact Outcome.exists_map_eq_ok.trans h.contexts.names.exists_row_iff
    | objectAt => exact Outcome.exists_map_eq_ok.trans h.objects.names.exists_row_iff
    | methodAt => exact Outcome.exists_map_eq_ok.trans h.methods.names.exists_row_iff
    | callSiteAt => exact Outcome.exists_map_eq_ok.trans h.callSites.names.exists_row_iff
    | pointerAt => exact Outcome.exists_map_eq_ok.trans h.pointers.names.exists_row_iff
    | objectsAt | change =>
      exact Outcome.exists_map_eq_ok.trans
        (h.inStep.exists_objects_iff.trans h.pointers.names.exists_row_iff)
    | _ => exact ⟨fun _ => trivial, fun _ => ⟨_, rfl⟩⟩

end Elements

/-- Allocates objects one after the other on a new heap. -/
def Heap.allocateAll (objs : List Obj) : List (Obj × ObjId) × Heap := Numbering.requestAll objs

/-- Whatever is asked of the elements, each kind of them is numbered densely, one to one and for
good, and each pointer has a set of its own. Objects are numbered by their sites in the same way,
and the first object of a site is kept. -/
theorem stable_numbers (qs more : List Elements.Operation) (objs : List Obj) :
    (Elements.performAll qs).2.Keeps (Elements.performAll qs).1 ∧
    (Elements.performAll qs).2.Extends (Elements.performAll (qs ++ more)).2 ∧
    (Heap.allocateAll objs).2.KeepsFirst (Heap.allocateAll objs).1 := by
  have hlogged : (Elements.performAll qs).2.Logged (Elements.performAll qs).1 :=
    (Elements.Logged.initial.foldl qs).1
  have hextends : (Elements.performAll qs).2.Extends (Elements.performAll (qs ++ more)).2 := by
    rw [Elements.performAll, Elements.performAll, List.foldl_append]
    exact (hlogged.foldl more).2
  exact ⟨hlogged.keeps, hextends, Numbering.keepsFirst_requestAll objs⟩

/-- A variable is met in two contexts, and in the second it is given an object; a number that names
no pointer is of no use. -/
def Elements.Operation.sample : List Elements.Operation :=
  [.context ⟨[.callSite ⟨4⟩]⟩, .pointer (.var ⟨1⟩ ⟨1⟩), .object ⟨⟨0⟩, ⟨0⟩⟩, .pointer (.var ⟨0⟩ ⟨1⟩),
    .context ⟨[.callSite ⟨4⟩]⟩, .change ⟨1⟩ (·.union (.singleton ⟨0⟩)),
    .change ⟨2⟩ (·.union (.singleton ⟨0⟩)), .findPointer (.staticField ⟨0⟩),
    .pointer (.var ⟨1⟩ ⟨1⟩), .context .empty]

/-- One site is given with two types, and a second site comes between. -/
def Heap.sample : List Obj :=
  [⟨⟨9⟩, .object ⟨0⟩, ⟨0⟩, ⟨0⟩⟩, ⟨⟨5⟩, .object ⟨0⟩, ⟨0⟩, ⟨0⟩⟩, ⟨⟨9⟩, .object ⟨1⟩, ⟨2⟩, ⟨1⟩⟩]

theorem stable_numbers_sample :
    (Elements.performAll Elements.Operation.sample).1.contexts.map Prod.snd =
      [⟨0⟩, ⟨1⟩, ⟨1⟩, ⟨0⟩] ∧
    (Elements.performAll Elements.Operation.sample).1.pointers.map Prod.snd = [⟨0⟩, ⟨1⟩, ⟨0⟩] ∧
    ((Elements.performAll Elements.Operation.sample).2.objectsOf ⟨0⟩).toList = [] ∧
    ((Elements.performAll Elements.Operation.sample).2.objectsOf ⟨1⟩).toList = [⟨0⟩] ∧
    (Elements.performAll Elements.Operation.sample).2.Keeps
      (Elements.performAll Elements.Operation.sample).1 ∧
    (Heap.allocateAll Heap.sample).1.map Prod.snd = [⟨0⟩, ⟨1⟩, ⟨0⟩] ∧
    (Heap.allocateAll Heap.sample).2.KeepsFirst (Heap.allocateAll Heap.sample).1 := by
  obtain ⟨hkeeps, -, hheap⟩ := stable_numbers Elements.Operation.sample [] Heap.sample
  exact ⟨by decide, by decide, by decide, by decide, hkeeps, by decide, hheap⟩

end ProgramFlow.PointsTo
