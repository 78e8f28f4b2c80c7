/-!
# Debouncing

Coalesces bursts of triggers into one run of an action. Every trigger replaces the timer that the
handle names by a new one. A timer that expires goes through three moves of its own: it clears the
handle, waits until the lock is free that every run of the action holds, and then starts the action.
Between these moves anything else may happen.
-/

namespace Monomorph

/-- Timers are numbered in the order in which they are made. -/
structure Debouncer where
  started : Nat := 0
  armed : List Nat := []
  handle : Option Nat := none
  /-- Expired timers that have not cleared the handle yet. -/
  expired : List Nat := []
  /-- Timers that are about to start the action. -/
  waiting : List Nat := []
  /-- Whether the lock that a timer holds while it runs the action is taken. -/
  locked : Bool := false
  /-- Timers that run the action. -/
  running : List Nat := []
deriving DecidableEq, Repr

namespace Debouncer

/-- Stops the timer that the handle names, unless it has expired. -/
def disarm (d : Debouncer) : Debouncer :=
  match d.handle with
  | none => d
  | some t => { d with armed := d.armed.erase t }

def trigger (d : Debouncer) : Debouncer :=
  { d.disarm with
    started := d.started + 1
    armed := d.disarm.armed ++ [d.started]
    handle := some d.started }

def cancel (d : Debouncer) : Debouncer :=
  { d.disarm with handle := none }

def expire? (d : Debouncer) (t : Nat) : Option Debouncer :=
  if t ∈ d.armed then
    some { d with armed := d.armed.erase t, expired := d.expired ++ [t] }
  else none

def clear? (d : Debouncer) (t : Nat) : Option Debouncer :=
  if t ∈ d.expired then
    some { d with handle := none, expired := d.expired.erase t, waiting := d.waiting ++ [t] }
  else none

def start? (d : Debouncer) (t : Nat) : Option Debouncer :=
  if t ∈ d.waiting ∧ d.locked = false then
    some { d with waiting := d.waiting.erase t, locked := true, running := d.running ++ [t] }
  else none

def finish? (d : Debouncer) (t : Nat) : Option Debouncer :=
  if t ∈ d.running then some { d with locked := false, running := d.running.erase t } else none

/-- What can happen in one atomic step: a call from outside, or a move of a timer. -/
inductive Move where
  | trigger
  | cancel
  | expire (t : Nat)
  | clear (t : Nat)
  | start (t : Nat)
  | finish (t : Nat)
deriving DecidableEq, Repr

/-- One atomic step; none when the timer is not where the move begins, or the lock is taken. -/
def step? (d : Debouncer) : Move → Option Debouncer
  | .trigger => some d.trigger
  | .cancel => some d.cancel
  | .expire t => d.expire? t
  | .clear t => d.clear? t
  | .start t => d.start? t
  | .finish t => d.finish? t

/-- The state that an interleaving of moves leads to, the latest move first; none when one of them
could not be made. -/
def after : List Move → Option Debouncer
  | [] => some {}
  | m :: earlier => (after earlier).bind (·.step? m)

/-- A timer goes off and reaches its action with nothing in between. -/
def reach? (d : Debouncer) (t : Nat) : Option Debouncer := do
  (← (← d.expire? t).clear? t).start? t

end Debouncer

end Monomorph
