import SolVendor.Proofs.Cache.History
/-!
# Cache — calls that overlap

The locks keep calls of the fetcher apart only within one storage. Through
several storages with the same root, calls for one dependency may be under
way at the same time, all of them in one staging tree. A history is calm if
nothing is removed from there while any of them is under way (`IsCalm`).
-/

namespace SolVendor

/-- A call of a thread is under way from when it begins until its tree has been moved, it has ended in
another way or the thread has given up. -/
def Event.pass (threads : List Nat) : Event → List Nat
  | started t => t :: threads
  | ended t ending => if ending = .done then threads else threads.filter (· ≠ t)
  | moved t | released t => threads.filter (· ≠ t)
  | acquired _ _ | cleared _ | removed _ => threads

/-- The threads whose calls are under way after some events. -/
def underWay (events : List Event) : List Nat :=
  events.foldl Event.pass []

/-- Nothing has been removed while a call was under way. -/
def IsCalm (events : List Event) : Prop :=
  ∀ pre t post, events = pre ++ .removed t :: post → underWay pre = []

variable {events more : List Event} {t u : Nat} {e : Event}

/-- What one thread does leaves the others' calls under way. -/
theorem Event.mem_pass_iff {threads : List Nat} (h : e.thread ≠ u) : u ∈ e.pass threads ↔ u ∈ threads := by
  have hne : ∀ {t}, t ≠ u → (u ∈ threads.filter (· ≠ t) ↔ u ∈ threads) := by
    intro t ht
    simp [List.mem_filter, Ne.symm ht]
  cases e with
  | started t => simp [pass, Ne.symm (show t ≠ u from h)]
  | ended t ending =>
    show u ∈ (if ending = .done then threads else threads.filter (· ≠ t)) ↔ u ∈ threads
    split
    · exact Iff.rfl
    · exact hne h
  | moved t => exact hne h
  | released t => exact hne h
  | acquired t poisoned => exact Iff.rfl
  | cleared t => exact Iff.rfl
  | removed t => exact Iff.rfl

theorem mem_underWay_append (h : ∀ e ∈ more, e.thread ≠ u) :
    u ∈ underWay (events ++ more) ↔ u ∈ underWay events := by
  unfold underWay
  rw [List.foldl_append]
  generalize events.foldl Event.pass [] = threads
  induction more generalizing threads with
  | nil => exact Iff.rfl
  | cons e more ih =>
    rw [List.foldl_cons, ih fun e he => h e (List.mem_cons_of_mem _ he),
      Event.mem_pass_iff (h e List.mem_cons_self)]

theorem mem_underWay_started : t ∈ underWay (events ++ [.started t]) := by
  unfold underWay
  rw [List.foldl_append]
  exact List.mem_cons_self

/-- A call that has come to its end is under way until the tree is moved. -/
theorem mem_underWay_done (h : t ∈ underWay events) : t ∈ underWay (events ++ [.ended t .done]) := by
  unfold underWay at h ⊢
  rwa [List.foldl_append]

/-- A history in which nothing is removed is calm. -/
theorem isCalm_of_notMem (h : ∀ t, .removed t ∉ events) : IsCalm events := by
  rintro pre t post rfl
  exact absurd (List.mem_append_right _ List.mem_cons_self) (h t)

/-- What has been calm was so before. -/
theorem IsCalm.of_append (h : IsCalm (events ++ more)) : IsCalm events := by
  rintro pre t post rfl
  refine h pre t (post ++ more) ?_
  rw [List.append_assoc, List.cons_append]

/-- Something is removed: no call is under way. -/
theorem IsCalm.underWay_eq_nil (h : IsCalm (events ++ .removed t :: more)) : underWay events = [] :=
  h events t more rfl

end SolVendor
