import ProgramFlow.Dataflow.Problem
import ProgramFlow.Iteration
/-!
Solving dataflow problems, either with a work list or by sweeping over all nodes until nothing
changes.
-/
namespace ProgramFlow.Dataflow

inductive Schedule
  | workList
  | sweeps
  deriving DecidableEq, Repr

def Schedule.names : List (String × Schedule) := [("work_list", workList), ("iterative", sweeps)]

def Schedule.text : Schedule → String
  | workList => "work_list"
  | sweeps => "iterative"

/-- The work that a solution took. -/
structure Counters where
  /-- Nodes taken from the work list, or sweeps. -/
  iterations : Nat := 0
  transfers : Nat := 0
  changes : Nat := 0
  deriving DecidableEq, Repr

/-- Appends the new items of a list to a queue. -/
def enqueue (queue items : List StmtId) : List StmtId :=
  items.foldl (fun q n => if n ∈ q then q else q ++ [n]) queue

theorem mem_enqueue {queue items : List StmtId} {n : StmtId} :
    n ∈ enqueue queue items ↔ n ∈ queue ∨ n ∈ items := by
  unfold enqueue
  induction items generalizing queue with
  | nil => simp
  | cons a items ih =>
    rw [List.foldl_cons, ih]
    split
    · next h =>
      simp only [List.mem_cons]
      grind
    · simp only [List.mem_append, List.mem_cons, List.not_mem_nil, or_false]
      grind

theorem nodup_enqueue {queue items : List StmtId} (h : queue.Nodup) :
    (enqueue queue items).Nodup := by
  unfold enqueue
  induction items generalizing queue with
  | nil => exact h
  | cons a items ih =>
    rw [List.foldl_cons]
    refine ih ?_
    split
    · exact h
    · next ha =>
      rw [List.nodup_append]
      refine ⟨h, List.pairwise_singleton _ _, fun x hx y hy hxy => ?_⟩
      rw [List.mem_singleton] at hy
      subst hy
      subst hxy
      exact ha hx

structure State (φ : Type) where
  table : Table φ
  queue : List StmtId := []
  counters : Counters := {}

namespace Problem

variable {φ : Type} [DecidableEq φ] (P : Problem φ) (g : ControlFlowGraph)

/-- Takes one node from the work list, and puts those that read its fact on it if it changed. -/
def workStep (s : State φ) : Progress (State φ) (Outcome (State φ)) :=
  match s.queue with
  | [] => .finished (.ok s)
  | n :: queue =>
    match P.visit g s.table n with
    | .error e => .finished (.error e)
    | .ok ⟨changed, table⟩ =>
      let next := (P.direction.sinks g n).filter (· ≠ P.direction.boundaryNode g)
      .running {
        table
        queue := if changed then enqueue queue next else queue
        counters := {
          iterations := s.counters.iterations + 1
          transfers := s.counters.transfers + 1
          changes := s.counters.changes + if changed then 1 else 0 } }

/-- Visits the nodes one after the other; the flag says whether any of them changed. -/
def sweep (s : State φ) (nodes : List StmtId) : Outcome (Change (State φ)) :=
  nodes.foldlM
    (fun ⟨any, s⟩ n => do
      let ⟨changed, table⟩ ← P.visit g s.table n
      return ⟨any || changed, {
        s with
        table
        counters := {
          s.counters with
          transfers := s.counters.transfers + 1
          changes := s.counters.changes + if changed then 1 else 0 } }⟩)
    ⟨false, s⟩

def sweepStep (s : State φ) : Progress (State φ) (Outcome (State φ)) :=
  let s := { s with counters := { s.counters with iterations := s.counters.iterations + 1 } }
  match P.sweep g s (P.direction.order g) with
  | .error e => .finished (.error e)
  | .ok ⟨true, s⟩ => .running s
  | .ok ⟨false, s⟩ => .finished (.ok s)

/-- Facts that only rise settle within two to this number of steps. -/
def rounds : Nat := g.nodes.length + g.edges.length + P.height + 3

def run (step : State φ → Progress (State φ) (Outcome (State φ))) (s : State φ) :
    Outcome (State φ) :=
  match Progress.iterate step (P.rounds g) s with
  | .finished r => r
  | .running _ => .error .notConverged

/-- Runs the work list from a table, with every node but the boundary node on it. -/
def workFrom (t : Table φ) : Outcome (State φ) :=
  P.run g (P.workStep g) { table := t, queue := enqueue [] (P.direction.order g) }

/-- The solution of the problem and the work it took. -/
def solveCounting (schedule : Schedule) : Outcome (Table φ × Counters) := do
  let t ← P.initial g
  let s ←
    match schedule with
    | .workList => P.workFrom g t
    | .sweeps => P.run g (P.sweepStep g) { table := t }
  return (s.table, s.counters)

def solve (schedule : Schedule) : Outcome (Table φ) := Prod.fst <$> P.solveCounting g schedule

/-- Continues from a table that is not above a solution. -/
def resume (t : Table φ) : Outcome (Table φ) := (·.table) <$> P.workFrom g t

end Problem

end ProgramFlow.Dataflow
