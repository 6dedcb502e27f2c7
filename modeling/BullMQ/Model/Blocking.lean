import BullMQ.Model.QueueCommand

/-!
# Workers that wait for jobs

The fetch loop of a worker that found no job blocks on the marker key of its queue (`waitForJob`),
and one that was told to slow down waits for the rate limit to end (`waitForRateLimit`). A `Crew` is
a store with the loops of any workers of a queue, whose steps come between all the other scripts,
those that process the workers' jobs among them. A worker is not closed while it waits, and no reply
is lost.
-/

namespace BullMQ

open Redis

/-- Where the fetch loop of a worker stands. -/
inductive FetchLoop
  /-- In `_getNextJob`, before the call of `moveToActive`. -/
  | fetching
  /-- In `waitForJob`. -/
  | blocked
  /-- In `waitForRateLimit`. -/
  | delaying
  /-- Elsewhere, with jobs in its processors or between two calls. -/
  | busy
  deriving DecidableEq, Repr

/-- `BZPOPMIN` on the marker key: the score of what it popped. -/
def popMarker (p : String) (s : Store) : Option (ℚ × Store) :=
  match (s .marker p).entries with
  | [] => none
  | e :: _ => some ((ofLex e).1, s.modify .marker p (·.zrem (ofLex e).2))

/-- A store and the loops of the workers `W`. -/
structure Crew (W : Type) where
  store : Store
  loop : W → FetchLoop

/-- What can happen. Whether a worker takes its queue for drained, and whether the time that the
marker of a delayed job names has come, is up to the workers and their clocks. -/
inductive CrewAction (W : Type)
  | script (c : QueueCommand)
  | getNextJob (worker : W) (drained : Bool)
  | unblock (worker : W) (due : Bool)
  | timeout (worker : W)
  /-- The blocking call fails. -/
  | fail (worker : W)
  | endDelay (worker : W)
  | moveToActive (worker : W) (timestamp : ℤ) (opts : FetchOpts)

namespace Crew

variable {W : Type} [DecidableEq W]

/-- The loop of one worker goes on. -/
def goTo (w : W) (loop : FetchLoop) (y : Crew W) : Crew W :=
  { y with loop := Function.update y.loop w loop }

/-- Where a worker goes on after the reply of `moveToActive`: it waits if it is rate limited. -/
def afterReply : Reply → FetchLoop
  | .noJob rateLimitDelay _ => if 0 < rateLimitDelay then .delaying else .busy
  | _ => .busy

/-- One step. -/
def step (p : String) : CrewAction W → Crew W → Option (Crew W)
  | .script c, y => (c.exec y.store).map fun r => { y with store := r.2 }
  | .getNextJob w drained, y =>
    if y.loop w = .busy then some (y.goTo w (if drained then .blocked else .fetching)) else none
  | .unblock w due, y =>
    if y.loop w = .blocked then
      (popMarker p y.store).map fun (blockUntil, s) =>
        { y with store := s }.goTo w (if blockUntil ≤ 0 ∨ due then .fetching else .busy)
    else none
  | .timeout w, y => if y.loop w = .blocked then some (y.goTo w .fetching) else none
  | .fail w, y => if y.loop w = .blocked then some (y.goTo w .busy) else none
  | .endDelay w, y => if y.loop w = .delaying then some (y.goTo w .fetching) else none
  | .moveToActive w t o, y =>
    if y.loop w = .fetching then
      let (reply, s) := Script.moveToActive p t o y.store
      some ({ y with store := s }.goTo w (afterReply reply))
    else none

end Crew

end BullMQ
