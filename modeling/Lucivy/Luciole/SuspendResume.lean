import Lucivy.Foundation.Transition

/-! # An actor that suspends on a reply

`Reply::send`, its `drop` and `set_resume` (`luciole/src/reply.rs`) against `resume_handle` and
`run_loop_handle_actor` (`luciole/src/scheduler.rs`), for one actor and the reply that it suspends
on. The sender holds the lock of the handle while it takes and fires it, so that is one step.

* `next` — the steps of the handler, the sender, the scheduler's threads and other senders.
* `covered_iff_timely` — **the actor is queued once, and handles nothing before that**, exactly
  while the handle is not attached to a dropped reply, no pop discards the item the handle queued,
  and no item queued for another message takes the suspended actor. -/

namespace Lucivy.Luciole.SuspendResume

open Lucivy.Foundation

inductive ActorPhase where
  /-- In the handler, ahead of `set_resume`. -/
  | handling
  | attached
  /-- `Suspend` was returned, and the thread still has the actor. -/
  | returned
  /-- Back in its slot. -/
  | suspended
  /-- Taken from the slot again, to handle messages. -/
  | resumed
deriving DecidableEq

inductive SenderPhase where
  | working
  /-- `send` is through, and the `Reply` not yet dropped. -/
  | sent
  | dropped
deriving DecidableEq

structure State where
  actor : ActorPhase
  sender : SenderPhase
  /-- A handle is attached to the reply. -/
  resume : Bool
  /-- The items of the actor in `ready_queue`. -/
  queued : Nat
  /-- `is_idle`, which is up behind a rewake although the actor has an item. -/
  isIdle : Bool
  /-- How often the handle has queued the actor. -/
  fired : Nat
deriving DecidableEq

inductive Event where
  | setResume
  | returnsSuspend
  | putsBack
  | sends
  | drops
  /-- `ActorRef::send` of another message. -/
  | message
  /-- A thread pops an item of the actor. -/
  | pops

/-- The handler begins. -/
def start (queued : Nat) (isIdle : Bool) : State := ⟨.handling, .working, false, queued, isIdle, 0⟩

/-- The handle is taken, if there is one, and fired. -/
def State.fire (s : State) : State :=
  if s.resume then { s with resume := false, queued := s.queued + 1, fired := s.fired + 1 } else s

def next (s : State) : Event → Option State
  | .setResume =>
    if s.actor = .handling then some { s with actor := .attached, resume := true } else none
  | .returnsSuspend => if s.actor = .attached then some { s with actor := .returned } else none
  | .putsBack => if s.actor = .returned then some { s with actor := .suspended } else none
  | .sends => if s.sender = .working then some { s.fire with sender := .sent } else none
  | .drops => if s.sender = .dropped then none else some { s.fire with sender := .dropped }
  | .message => some (if s.isIdle then { s with isIdle := false, queued := s.queued + 1 } else s)
  | .pops =>
    match s.queued with
    | 0 => none
    | n + 1 =>
      -- an actor that is not in its slot leaves the item without effect
      let actor := if s.actor = .suspended then .resumed else s.actor
      some { s with queued := n, actor := actor }

/-- **The reply will wake the actor, or has**: its handle waits for a sender, or it has queued the
actor once and the item is there, up to the moment the actor is taken for it. -/
def Covered (s : State) : Prop :=
  match s.actor with
  | .handling => s.resume = false ∧ s.fired = 0
  | .attached | .returned | .suspended =>
    if s.resume then s.sender ≠ .dropped ∧ s.fired = 0 else s.fired = 1 ∧ 0 < s.queued
  | .resumed => s.resume = false ∧ s.fired = 1

/-- The steps that come at the right time. -/
def Timely (s : State) : Event → Prop
  | .setResume => s.sender ≠ .dropped
  | .pops =>
    match s.actor with
    | .attached | .returned => s.resume = true ∨ 1 < s.queued
    | .suspended => s.resume = false
    | .handling | .resumed => True
  | _ => True

theorem covered_fire {s : State} (h : Covered s) (sender : SenderPhase) :
    Covered { s.fire with sender } := by
  obtain ⟨actor, _, resume, _, _, _⟩ := s
  cases actor <;> cases resume <;> simp_all [Covered, State.fire]

/-- **One step** keeps the actor covered just if it is timely. -/
theorem covered_step {s t : State} {e : Event} (h : Covered s) (hstep : next s e = some t) :
    Covered t ↔ Timely s e := by
  obtain ⟨actor, sender, resume, queued, isIdle, fired⟩ := s
  cases e with
  | setResume =>
    obtain ⟨rfl, ⟨⟩⟩ := Option.ite_none_right_eq_some.mp hstep
    simp_all [Covered, Timely]
  | returnsSuspend =>
    obtain ⟨rfl, ⟨⟩⟩ := Option.ite_none_right_eq_some.mp hstep
    exact iff_of_true h trivial
  | putsBack =>
    obtain ⟨rfl, ⟨⟩⟩ := Option.ite_none_right_eq_some.mp hstep
    exact iff_of_true h trivial
  | sends =>
    obtain ⟨-, ⟨⟩⟩ := Option.ite_none_right_eq_some.mp hstep
    exact iff_of_true (covered_fire h .sent) trivial
  | drops =>
    obtain ⟨-, ⟨⟩⟩ := Option.ite_none_left_eq_some.mp hstep
    exact iff_of_true (covered_fire h .dropped) trivial
  | message =>
    obtain rfl := Option.some.inj hstep
    cases isIdle <;> cases actor <;> grind [Covered, Timely]
  | pops =>
    cases queued with
    | zero => cases hstep
    | succ n =>
      obtain rfl := Option.some.inj hstep
      cases actor <;> cases resume <;> simp_all [Covered, Timely]

/-- **The actor is woken exactly once, and not before its reply**, in every run whose steps are
timely; the first step that is not ends that. -/
theorem covered_iff_timely {queued : Nat} {isIdle : Bool} {events : List Event} {s : State}
    (hrun : Run (Guarded (next · · = some ·) Timely) (start queued isIdle) events s) :
    Covered s ∧ ∀ e t, next s e = some t → (Covered t ↔ Timely s e) := by
  have hs : Covered s := by
    refine hrun.invariant (I := Covered) (fun s e t h hstep => ?_) ⟨rfl, rfl⟩
    exact (covered_step h hstep.2).mpr hstep.1
  exact ⟨hs, fun e t => covered_step hs⟩

/-- A reply that is sent last queues the actor. -/
theorem covered_sent_last : Covered ⟨.suspended, .sent, false, 1, false, 1⟩ := by
  have hrun : Run (Guarded (next · · = some ·) Timely) (start 0 false)
      [.setResume, .returnsSuspend, .putsBack, .sends] ⟨.suspended, .sent, false, 1, false, 1⟩ :=
    .snoc (.snoc (.snoc (.snoc .nil ⟨by simp [Timely, start], rfl⟩) ⟨trivial, rfl⟩)
      ⟨trivial, rfl⟩) ⟨trivial, rfl⟩
  exact (covered_iff_timely hrun).1

/-- **A wakeup is lost**: the reply is dropped before the handle is attached, and the suspended
actor has no item and no sender. -/
theorem dropped_before_attached :
    [.sends, .drops, .setResume, .returnsSuspend, .putsBack].foldlM next (start 0 false) =
      some ⟨.suspended, .dropped, true, 0, false, 0⟩ := by
  decide

/-- **An item is discarded**: the reply comes while the thread still has the actor. -/
example : [.setResume, .sends, .pops, .drops, .returnsSuspend, .putsBack].foldlM next
    (start 0 false) = some ⟨.suspended, .dropped, false, 0, false, 1⟩ := by
  decide

end Lucivy.Luciole.SuspendResume
