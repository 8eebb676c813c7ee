import CoherenceFormal.Protocols
import CoherenceFormal.Shared.Runs
import Mathlib.Algebra.GroupWithZero.Nat

/-!
# The discrete-event simulator

`coherence_simulator.cpp`. A trace is the list of pairs its stream yields. Time is
a natural number: 64-bit time is taken not to wrap.

`std::priority_queue` leaves events of equal timestamp and priority unordered, so
the heap is a list and `processNext` is given the event that is popped, which may
be any event that no other one precedes.
-/

namespace CoherenceFormal
set_option autoImplicit false

structure TraceEntry where
  label : Int
  val : Addr
  deriving Repr, DecidableEq

def TraceEntry.isWrite (entry : TraceEntry) : Bool := entry.label == 1

structure BusRequest (n : Nat) where
  coreId : Fin n
  type : BusTransactionType
  addr : Addr
  arrivalTime : Nat
  deriving Repr, DecidableEq

inductive Event (n : Nat) where
  | busRelease (timestamp : Nat)
  | busArbitration (timestamp : Nat)
  | coreUnblock (timestamp : Nat) (coreId : Fin n)
  | fetch (timestamp : Nat) (coreId : Fin n)
  deriving Repr, DecidableEq

namespace Event
variable {n : Nat}

def timestamp : Event n → Nat
  | busRelease t => t
  | busArbitration t => t
  | coreUnblock t _ => t
  | fetch t _ => t

def getPriority : Event n → Nat
  | busRelease _ => 0
  | busArbitration _ => 1
  | coreUnblock _ _ => 2
  | fetch _ _ => 3

/-- `EventComparator`: `a` is popped after `b`. -/
def comparator (a b : Event n) : Bool :=
  if a.timestamp ≠ b.timestamp then a.timestamp > b.timestamp
  else a.getPriority > b.getPriority

/-- `e` may be the top of a heap with the events `queue`. -/
def isTop (queue : List (Event n)) (e : Event n) : Bool := queue.all fun e' => !comparator e e'

end Event

/-- The compile-time option READ_PRIORITY and the constructor's sizes. -/
structure Config where
  readPriority : Bool
  geometry : Geometry

structure Simulator (S : Type) (n : Nat) where
  eventQueue : List (Event n)
  currentTime : Nat
  machine : Machine S n
  blocked : Fin n → Bool
  traces : Fin n → List TraceEntry
  traceExhausted : Fin n → Bool
  busQueue : List (BusRequest n)
  busBusy : Bool

/-- The comparison of `std::min_element` in the arbiter. -/
def BusRequest.precedes {n : Nat} (readPriority : Bool) (a b : BusRequest n) : Bool :=
  let aIsRead := a.type == .busRd
  let bIsRead := b.type == .busRd
  if readPriority && aIsRead != bIsRead then aIsRead
  else if a.arrivalTime ≠ b.arrivalTime then a.arrivalTime < b.arrivalTime
  else a.coreId < b.coreId

/-- `std::min_element`: the first element that no other one precedes. -/
def minElement {α : Type} (precedes : α → α → Bool) : List α → Option α
  | [] => none
  | a :: rest => some (rest.foldl (fun smallest b => if precedes b smallest then b else smallest) a)

namespace Simulator
variable {S : Type} [LineState S] {n : Nat}

def schedule (sim : Simulator S n) (event : Event n) : Simulator S n :=
  { sim with eventQueue := event :: sim.eventQueue }

def busRelease (sim : Simulator S n) (timestamp : Nat) : Simulator S n :=
  let sim := { sim with busBusy := false }
  if sim.busQueue.isEmpty then sim else sim.schedule (.busArbitration timestamp)

def busArbitration (cfg : Config) (R : ProtocolRules S) (sim : Simulator S n) (timestamp : Nat) :
    Option (Simulator S n) :=
  if sim.busBusy then some sim
  else match minElement (BusRequest.precedes cfg.readPriority) sim.busQueue with
  | none => some sim
  | some req =>
    let sim := { sim with busQueue := sim.busQueue.erase req, busBusy := true }
    match handleBusTransaction R cfg.geometry sim.machine req.coreId req.type req.addr with
    | none => none
    | some (latency, machine) =>
      let sim := { sim with machine := machine }
      let sim := sim.schedule (.busRelease (timestamp + latency))
      if req.type ≠ .writeback then
        some (sim.schedule (.coreUnblock (timestamp + latency) req.coreId))
      else some sim

def coreUnblock (sim : Simulator S n) (timestamp : Nat) (coreId : Fin n) : Simulator S n :=
  let sim := { sim with blocked := Function.update sim.blocked coreId false }
  sim.schedule (.fetch timestamp coreId)

/-- Counts the load or store of an entry and hands it to the protocol. -/
def access (cfg : Config) (R : ProtocolRules S) (sim : Simulator S n) (coreId : Fin n)
    (entry : TraceEntry) : ProtocolResponse × Machine S n :=
  let machine := sim.machine.updStats coreId fun st =>
    if entry.isWrite then { st with storeCount := st.storeCount + 1 }
    else { st with loadCount := st.loadCount + 1 }
  handleProcessorRequest R cfg.geometry machine coreId entry.val entry.isWrite

/-- The part of `FetchEvent::execute` after an entry has been read. -/
def executeEntry (cfg : Config) (R : ProtocolRules S) (sim : Simulator S n) (timestamp : Nat)
    (coreId : Fin n) (entry : TraceEntry) : Simulator S n :=
  if entry.label = 2 then
    let machine := sim.machine.updStats coreId fun st =>
      { st with computeCycles := st.computeCycles + entry.val.toNat }
    { sim with machine := machine }.schedule (.fetch (timestamp + entry.val.toNat) coreId)
  else
    let handled := sim.access cfg R coreId entry
    let resp := handled.1
    if resp.isHit && resp.busAction == .none then
      let machine := handled.2.updStats coreId fun st => { st with cacheHits := st.cacheHits + 1 }
      { sim with machine := machine }.schedule (.fetch (timestamp + 1) coreId)
    else
      let machine := handled.2.updStats coreId fun st =>
        { st with cacheMisses := st.cacheMisses + 1 }
      let sim := { sim with
        machine := machine
        blocked := Function.update sim.blocked coreId true
        busQueue := sim.busQueue ++ [⟨coreId, resp.busAction, entry.val, timestamp⟩] }
      if sim.busBusy then sim else sim.schedule (.busArbitration timestamp)

def fetch (cfg : Config) (R : ProtocolRules S) (sim : Simulator S n) (timestamp : Nat)
    (coreId : Fin n) : Simulator S n :=
  if sim.blocked coreId then sim
  else match sim.traces coreId with
  | [] => { sim with traceExhausted := Function.update sim.traceExhausted coreId true }
  | entry :: rest =>
    let sim := { sim with traces := Function.update sim.traces coreId rest }
    sim.executeEntry cfg R timestamp coreId entry

def execute (cfg : Config) (R : ProtocolRules S) (sim : Simulator S n) :
    Event n → Option (Simulator S n)
  | .busRelease t => some (sim.busRelease t)
  | .busArbitration t => sim.busArbitration cfg R t
  | .coreUnblock t i => some (sim.coreUnblock t i)
  | .fetch t i => some (sim.fetch cfg R t i)

/-- `events.pop()` of the event `e`, and the clock set to its timestamp. -/
def pop (sim : Simulator S n) (e : Event n) : Simulator S n :=
  { sim with eventQueue := sim.eventQueue.erase e, currentTime := e.timestamp }

def processNext (cfg : Config) (R : ProtocolRules S) (sim : Simulator S n) (e : Event n) :
    Option (Simulator S n) :=
  if e ∈ sim.eventQueue ∧ e.isTop sim.eventQueue then (sim.pop e).execute cfg R e else none

/-- The state in which the loop of `run` is entered. -/
def start (traces : Fin n → List TraceEntry) : Simulator S n where
  eventQueue := (List.finRange n).map (Event.fetch 0)
  currentTime := 0
  machine := Machine.init
  blocked := fun _ => false
  traces := traces
  traceExhausted := fun _ => false
  busQueue := []
  busBusy := false

/-- The test that ends the loop of `run` before the heap is empty. -/
def finished (sim : Simulator S n) : Bool :=
  (List.finRange n).all sim.traceExhausted && (List.finRange n).all (fun i => !sim.blocked i) &&
    !sim.busBusy && sim.busQueue.isEmpty

/-- The loop of `run`. The source makes the test after each event; it is false on
entry, when no trace is exhausted, unless there are no cores and no events. -/
def system (cfg : Config) (R : ProtocolRules S) (traces : Fin n → List TraceEntry) :
    System (Simulator S n) (Event n) where
  start := fun sim => sim = start traces
  step := fun sim e sim' => sim.finished = false ∧ sim.processNext cfg R e = some sim'

/-- The loop driven by a given order of pops, with the moves it has made. -/
def runEvents (cfg : Config) (R : ProtocolRules S) (h : List (Move (Simulator S n) (Event n)))
    (sim : Simulator S n) :
    List (Event n) → Option (List (Move (Simulator S n) (Event n)) × Simulator S n)
  | [] => some (h, sim)
  | e :: rest =>
    if sim.finished then none
    else match sim.processNext cfg R e with
    | none => none
    | some sim' => runEvents cfg R (⟨sim, e, sim'⟩ :: h) sim' rest

theorem run_of_runEvents {cfg : Config} {R : ProtocolRules S}
    {traces : Fin n → List TraceEntry} {sim sim' : Simulator S n} {es : List (Event n)}
    {h h' : List (Move (Simulator S n) (Event n))} (hr : (system cfg R traces).Run h sim)
    (hes : runEvents cfg R h sim es = some (h', sim')) : (system cfg R traces).Run h' sim' := by
  induction es generalizing h sim with
  | nil =>
    obtain ⟨rfl, rfl⟩ := Prod.mk.inj (Option.some.inj hes)
    exact hr
  | cons e rest ih =>
    simp only [runEvents] at hes
    split at hes
    · simp at hes
    · rename_i hfin
      split at hes
      · simp at hes
      · rename_i sim₁ hp
        exact ih (hr.next ⟨by simpa using hfin, hp⟩) hes

/-- A concrete run, by evaluation of `runEvents` and of a test on its end. -/
theorem exists_run (cfg : Config) (R : ProtocolRules S) (traces : Fin n → List TraceEntry)
    (es : List (Event n)) (test : List (Move (Simulator S n) (Event n)) → Simulator S n → Bool)
    (heval : (runEvents cfg R [] (start traces) es).any (fun r => test r.1 r.2) = true) :
    ∃ h s, (system cfg R traces).Run h s ∧ test h s = true := by
  obtain ⟨⟨h, s⟩, hs, ht⟩ := (Option.any_eq_true _ _).mp heval
  exact ⟨h, s, run_of_runEvents (.start rfl) hs, ht⟩

/-- A concrete run by its last move, with a test on it and on the moves before it. -/
theorem exists_last_move (cfg : Config) (R : ProtocolRules S) (traces : Fin n → List TraceEntry)
    (es : List (Event n))
    (test : List (Move (Simulator S n) (Event n)) → Move (Simulator S n) (Event n) → Bool)
    (heval : (runEvents cfg R [] (start traces) es).any
      (fun r => r.1.head?.any (test r.1.tail)) = true) :
    ∃ h m, (system cfg R traces).Run (m :: h) m.after ∧ test h m = true := by
  obtain ⟨h, s, hr, ht⟩ := exists_run cfg R traces es (fun h _ => h.head?.any (test h.tail)) heval
  cases hr with
  | start => simp at ht
  | next hr hs => exact ⟨_, _, hr.next hs, ht⟩

end Simulator

/-- The literals for the core numbers of a machine with two cores. -/
instance (priority := 2000) twoCores : NeZero (2 : Nat) := ⟨by decide⟩

/-- One set of two 4-byte blocks. -/
def tinyConfig : Config := ⟨false, ⟨8, 2, 4, by decide, by decide, by decide, by decide⟩⟩

/-- Core 0 stores to the block that core 1 loads. -/
def storeAndLoad (i : Fin 2) : List TraceEntry := if i = 0 then [⟨1, 0⟩] else [⟨0, 0⟩]

end CoherenceFormal
