import Mathlib.Data.List.Induction
import SolVendor.Cache.Concurrent
/-!
# Cache — histories of one dependency

What has happened to one dependency of one storage is read event by event.
The dependency is idle, or a call of the fetcher is going on, or its tree
has been moved into place, or a call has crashed (`Phase`). In each phase
only some events can come next (`Phase.next`).

A history that can be read in this way is serial (`isSerial_of_after?`):
calls do not overlap, and once a tree has been moved into place or a call
has crashed, nothing more happens but locks being taken and given back.
-/

namespace SolVendor

/-- The thread through which something has happened. -/
def Event.thread : Event → Nat
  | acquired t _ | cleared t | removed t | started t | ended t _ | moved t | released t => t

/-- What the fetches of a dependency have come to. -/
inductive Phase where
  | idle
  /-- A thread is calling the fetcher. -/
  | calling (thread : Nat)
  /-- The tree has been moved into place. -/
  | moved
  /-- A call of the fetcher has crashed. -/
  | crashed
deriving DecidableEq, Repr

namespace Phase

/-- What an event leads to, if it can come next. -/
def next : Phase → Event → Option Phase
  | idle, .acquired _ _ | idle, .cleared _ | idle, .removed _ | idle, .released _ => some idle
  | idle, .started t => some (calling t)
  | idle, .moved _ => some moved
  | calling t, .ended u ending =>
    if t = u then some (if ending = .crashed then crashed else idle) else none
  | moved, .acquired _ _ | moved, .released _ => some moved
  | crashed, .acquired _ true | crashed, .released _ => some crashed
  | _, _ => none

/-- The phase after some events, if each of them could come next. -/
def after? (φ : Phase) (events : List Event) : Option Phase :=
  events.foldlM next φ

variable {φ ψ : Phase} {e : Event} {events more : List Event}

@[simp] theorem after?_nil (φ : Phase) : φ.after? [] = some φ := rfl

theorem after?_cons (φ : Phase) (e : Event) (events : List Event) :
    φ.after? (e :: events) = (φ.next e).bind fun ψ => ψ.after? events := by
  unfold after?
  rw [List.foldlM_cons]
  rfl

@[simp] theorem after?_singleton (φ : Phase) (e : Event) : φ.after? [e] = φ.next e := by
  rw [after?_cons]
  cases φ.next e <;> rfl

theorem after?_append (φ : Phase) (events more : List Event) :
    φ.after? (events ++ more) = (φ.after? events).bind fun ψ => ψ.after? more := by
  unfold after?
  rw [List.foldlM_append]
  rfl

/-- The rest of a history is one from the phase that the first events lead to. -/
theorem exists_after?_of_append (h : φ.after? (events ++ e :: more) = some ψ) :
    ∃ χ ω, φ.after? events = some χ ∧ χ.next e = some ω ∧ ω.after? more = some ψ := by
  rw [after?_append] at h
  obtain ⟨χ, hχ, h⟩ := Option.bind_eq_some_iff.1 h
  rw [after?_cons] at h
  obtain ⟨ω, hω, h⟩ := Option.bind_eq_some_iff.1 h
  exact ⟨χ, ω, hχ, hω, h⟩

/-- A call goes on until it ends. -/
theorem next_calling {t : Nat} (h : (calling t).next e = some ψ) :
    ∃ ending, e = .ended t ending ∧ ψ = if ending = .crashed then crashed else idle := by
  cases e with
  | ended u ending =>
    replace h : (if t = u then some (if ending = .crashed then crashed else idle) else none) = some ψ := h
    by_cases heq : t = u
    · subst heq
      rw [if_pos rfl] at h
      exact ⟨ending, rfl, (Option.some.inj h).symm⟩
    · rw [if_neg heq] at h
      cases h
  | _ => cases h

/-- Where the tree is, only locks change hands. -/
theorem next_moved (h : moved.next e = some ψ) :
    ψ = moved ∧ ((∃ t poisoned, e = .acquired t poisoned) ∨ ∃ t, e = .released t) := by
  cases e with
  | acquired t poisoned => exact ⟨(Option.some.inj h).symm, .inl ⟨t, poisoned, rfl⟩⟩
  | released t => exact ⟨(Option.some.inj h).symm, .inr ⟨t, rfl⟩⟩
  | _ => cases h

/-- After a crash a lock that is taken is poisoned. -/
theorem next_crashed (h : crashed.next e = some ψ) :
    ψ = crashed ∧ ((∃ t, e = .acquired t true) ∨ ∃ t, e = .released t) := by
  cases e with
  | acquired t poisoned =>
    cases poisoned with
    | false => cases h
    | true => exact ⟨(Option.some.inj h).symm, .inl ⟨t, rfl⟩⟩
  | released t => exact ⟨(Option.some.inj h).symm, .inr ⟨t, rfl⟩⟩
  | _ => cases h

theorem after?_moved (h : moved.after? events = some ψ) :
    ψ = moved ∧ ∀ e ∈ events, (∃ t poisoned, e = .acquired t poisoned) ∨ ∃ t, e = .released t := by
  induction events with
  | nil => exact ⟨(Option.some.inj h).symm, fun e he => absurd he List.not_mem_nil⟩
  | cons e events ih =>
    rw [after?_cons] at h
    obtain ⟨ω, hω, h⟩ := Option.bind_eq_some_iff.1 h
    obtain ⟨rfl, hlock⟩ := next_moved hω
    obtain ⟨rfl, hlocks⟩ := ih h
    exact ⟨rfl, List.forall_mem_cons.2 ⟨hlock, hlocks⟩⟩

theorem after?_crashed (h : crashed.after? events = some ψ) :
    ψ = crashed ∧ ∀ e ∈ events, (∃ t, e = .acquired t true) ∨ ∃ t, e = .released t := by
  induction events with
  | nil => exact ⟨(Option.some.inj h).symm, fun e he => absurd he List.not_mem_nil⟩
  | cons e events ih =>
    rw [after?_cons] at h
    obtain ⟨ω, hω, h⟩ := Option.bind_eq_some_iff.1 h
    obtain ⟨rfl, hlock⟩ := next_crashed hω
    obtain ⟨rfl, hlocks⟩ := ih h
    exact ⟨rfl, List.forall_mem_cons.2 ⟨hlock, hlocks⟩⟩

/-- A tree is moved where no call is going on. -/
theorem eq_moved_of_next {t : Nat} (h : φ.next (.moved t) = some ψ) : ψ = moved := by
  cases φ with
  | idle => exact (Option.some.inj h).symm
  | _ => cases h

/-- A call of the fetcher begins where none is going on. -/
theorem eq_calling_of_next {t : Nat} (h : φ.next (.started t) = some ψ) :
    φ = idle ∧ ψ = calling t := by
  cases φ with
  | idle => exact ⟨rfl, (Option.some.inj h).symm⟩
  | _ => cases h

theorem eq_crashed_of_next {t : Nat} (h : φ.next (.ended t .crashed) = some ψ) : ψ = crashed := by
  cases φ with
  | calling u =>
    obtain ⟨ending, hending, rfl⟩ := next_calling h
    cases hending
    rfl
  | _ => cases h

end Phase

/-- Calls of the fetcher do not overlap. Once a tree has been moved into place, or a call has crashed,
locks are taken and given back and nothing else happens; after a crash they are poisoned. -/
structure IsSerial (events : List Event) : Prop where
  apart : ∀ {pre mid post t u}, events = pre ++ .started t :: (mid ++ .started u :: post) →
    ∃ ending, .ended t ending ∈ mid
  moved_once : ∀ {pre post t e}, events = pre ++ .moved t :: post → e ∈ post →
    (∃ u poisoned, e = .acquired u poisoned) ∨ ∃ u, e = .released u
  poisoned : ∀ {pre post t e}, events = pre ++ .ended t .crashed :: post → e ∈ post →
    (∃ u, e = .acquired u true) ∨ ∃ u, e = .released u

open Phase in
/-- **A history that can be read event by event is serial.** -/
theorem isSerial_of_after? {events : List Event} {φ : Phase} (h : idle.after? events = some φ) :
    IsSerial events where
  apart {pre mid post t u} heq := by
    subst heq
    obtain ⟨χ, ω, -, hω, h⟩ := exists_after?_of_append h
    obtain ⟨-, rfl⟩ := eq_calling_of_next hω
    cases mid with
    | nil =>
      rw [List.nil_append, after?_cons] at h
      obtain ⟨ω, hω, -⟩ := Option.bind_eq_some_iff.1 h
      cases hω
    | cons e mid =>
      rw [List.cons_append, after?_cons] at h
      obtain ⟨ω, hω, -⟩ := Option.bind_eq_some_iff.1 h
      obtain ⟨ending, rfl, -⟩ := next_calling hω
      exact ⟨ending, List.mem_cons_self⟩
  moved_once {pre post t e} heq he := by
    subst heq
    obtain ⟨χ, ω, -, hω, h⟩ := exists_after?_of_append h
    obtain rfl := eq_moved_of_next hω
    exact (after?_moved h).2 e he
  poisoned {pre post t e} heq he := by
    subst heq
    obtain ⟨χ, ω, -, hω, h⟩ := exists_after?_of_append h
    obtain rfl := eq_crashed_of_next hω
    exact (after?_crashed h).2 e he

open Phase in
/-- The tree has been moved into place when that has happened. -/
theorem Phase.after?_eq_moved {events : List Event} {φ : Phase} {t : Nat}
    (h : idle.after? events = some φ) (ht : .moved t ∈ events) : φ = moved := by
  obtain ⟨pre, post, rfl⟩ := List.append_of_mem ht
  obtain ⟨χ, ω, -, hω, h⟩ := exists_after?_of_append h
  obtain rfl := eq_moved_of_next hω
  exact (after?_moved h).1

open Phase in
theorem Phase.after?_eq_crashed {events : List Event} {φ : Phase} {t : Nat}
    (h : idle.after? events = some φ) (ht : .ended t .crashed ∈ events) : φ = crashed := by
  obtain ⟨pre, post, rfl⟩ := List.append_of_mem ht
  obtain ⟨χ, ω, -, hω, h⟩ := exists_after?_of_append h
  obtain rfl := eq_crashed_of_next hω
  exact (after?_crashed h).1

open Phase in
/-- It is so only if it has happened. -/
theorem Phase.exists_moved {events : List Event} (h : idle.after? events = some moved) :
    ∃ t, .moved t ∈ events := by
  induction events using List.reverseRecOn with
  | nil => cases h
  | append_singleton events e ih =>
    rw [after?_append] at h
    obtain ⟨χ, hχ, h⟩ := Option.bind_eq_some_iff.1 h
    rw [after?_singleton] at h
    cases χ with
    | idle =>
      cases e with
      | moved t => exact ⟨t, by simp⟩
      | _ => cases h
    | calling t =>
      obtain ⟨ending, -, hmoved⟩ := next_calling h
      split at hmoved <;> cases hmoved
    | moved =>
      obtain ⟨t, ht⟩ := ih hχ
      exact ⟨t, List.mem_append_left _ ht⟩
    | crashed =>
      obtain ⟨hmoved, -⟩ := next_crashed h
      cases hmoved

end SolVendor
