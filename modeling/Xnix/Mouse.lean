import Xnix.Lib.Run

/-!
# The mouse, from the driver's queue to the window server

`mouse_queue_put` of `drivers/ps2/main.c`, `INPUTDEV_POLL` of `libdriver/src/inputdev.c` and
`mouse_thread` of `servers/ws/input.c`. The queue is the list of its events, the oldest first.
-/

namespace Xnix

/-- A movement with `value` and `value2`, or an event of another type with its code and value. -/
inductive MouseEvent
  | move (dx dy : ℤ)
  | button (code : ℕ) (value : ℤ)
  deriving DecidableEq

/-- `EVENT_BUF_SIZE`. -/
def eventBufSize : ℕ := 128

def clamp16 (d : ℤ) : ℤ := max (-32768) (min d 32767)

def MouseEvent.way : MouseEvent → Option (ℤ × ℤ)
  | .move dx dy => some (dx, dy)
  | .button _ _ => none

/-- The sums that a movement makes with the last event, if that is one too. -/
def mergeSums (q : List MouseEvent) (ev : MouseEvent) : Option (ℤ × ℤ) :=
  (q.getLast?.bind MouseEvent.way).bind fun p => ev.way.map fun d => (p.1 + d.1, p.2 + d.2)

def mergeLast (q : List MouseEvent) (ev : MouseEvent) : Option (List MouseEvent) :=
  (mergeSums q ev).map fun d => q.dropLast ++ [.move (clamp16 d.1) (clamp16 d.2)]

/-- `mouse_queue_put`, which tries to merge a second time when there is no room. -/
def mouseQueuePut (q : List MouseEvent) (ev : MouseEvent) : List MouseEvent :=
  match mergeLast q ev with
  | some q => q
  | none => if q.length + 1 < eventBufSize then q ++ [ev] else (mergeLast q ev).getD q

/-- The reply of `inputdev_handle_msg` to `INPUTDEV_POLL`, in the registers of the request. -/
def inputdevPoll (q : List MouseEvent) (regs : ℕ → BitVec 32) : ℕ → BitVec 32 :=
  Function.update regs 0 (.ofNat 32 q.length)

def mouseHasEvents (q : List MouseEvent) : Bool :=
  let reply := inputdevPoll q (Function.update (fun _ => 0) 0 0x301)
  if (reply 0).toInt < 0 then false else reply 1 != 0

/-- Where `mouse_thread` is: before its first read, before `mouse_has_events`, or before the next
read, with `pending_dx` and `pending_dy`. -/
inductive MousePc
  | idle
  | polling (dx dy : ℤ)
  | reading (dx dy : ℤ)
  deriving DecidableEq

/-- The events that the device gave and those that went to `route_mouse_event` are kept. -/
structure MousePipe where
  queue : List MouseEvent
  pc : MousePc
  given : List MouseEvent
  routed : List MouseEvent

namespace MousePipe

inductive Action
  | put (ev : MouseEvent)
  | server

/-- What `route_coalesced_mouse_move` routes; the casts are to `int16_t`. -/
def coalesced (dx dy : ℤ) : List MouseEvent :=
  let dx := dx.bmod (2 ^ 16)
  let dy := dy.bmod (2 ^ 16)
  if dx = 0 ∧ dy = 0 then [] else [.move dx dy]

/-- The loop's body after a read; nothing is pending at the first one. -/
def handle (s : MousePipe) (dx dy : ℤ) : MouseEvent → MousePipe
  | .move x y => { s with pc := .polling (dx + x) (dy + y) }
  | .button code value =>
    { s with pc := .polling 0 0, routed := s.routed ++ coalesced dx dy ++ [.button code value] }

/-- A read that blocks while the queue is empty. -/
def read (s : MousePipe) (dx dy : ℤ) : MousePipe :=
  match s.queue with
  | [] => s
  | ev :: rest => { s with queue := rest }.handle dx dy ev

def step (s : MousePipe) : Action → Option MousePipe
  | .put ev => some { s with queue := mouseQueuePut s.queue ev, given := s.given ++ [ev] }
  | .server =>
    match s.pc with
    | .idle => some (s.read 0 0)
    | .polling dx dy =>
      some (if mouseHasEvents s.queue then { s with pc := .reading dx dy }
        else { s with pc := .idle, routed := s.routed ++ coalesced dx dy })
    | .reading dx dy => some (s.read dx dy)

def boot : MousePipe := ⟨[], .idle, [], []⟩

end MousePipe

end Xnix
