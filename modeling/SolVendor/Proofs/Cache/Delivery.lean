import SolVendor.Cache.Fetcher
import SolVendor.Proofs.Host.Keeping
/-!
# Cache — what a delivery can do

Whatever a delivery writes, the directories that were there are there
still, and the working directory is the same (`keeps_run`). So a
destination at which nothing stood is a directory afterwards, or vacant
still (`destination_of_run`).

What else a delivery changes is up to the fetcher. A fetcher is confined
when a call for a vacant place changes nothing but that place and what is
below it (`Fetcher.IsConfined`). Since others may look on while it writes,
it matters whether that is so all the time, wherever it is stopped
(`Fetcher.IsConfinedThroughout`).
-/

namespace SolVendor

open FileSystem

variable {h : Host} {p : Path} {loc : Location}

namespace Delivery

/-- **Writing keeps what was there**, strict or not, and however far it comes. -/
theorem keeps_write (hcwd : h.files.get? h.cwd.place = some .dir) (strict : Bool)
    (ws : List (Path × Entry)) : h.Keeps (Action.run (write strict ws) h).2 := by
  induction ws generalizing h with
  | nil => exact .refl h
  | cons w ws ih =>
    obtain ⟨p, e⟩ := w
    unfold write
    cases strict with
    | true =>
      rw [if_pos rfl]
      exact .bind (.plant hcwd p e) fun _ hk => ih (hk.cwd_dir hcwd)
    | false =>
      have hplant : h.Keeps (Action.run (Action.attempt (Action.plant p e)) h).2 :=
        .plant hcwd p e
      rw [if_neg Bool.false_ne_true]
      exact .bind hplant fun _ hk => ih (hk.cwd_dir hcwd)

/-- **A delivery always ends**, and leaves what its writing leaves. -/
theorem run_eq (delivery : Delivery) (p : Path) (h : Host) :
    Action.run (delivery.run p) h =
      (.ok (delivery.endingOf (Action.run (write delivery.strict (delivery.writes p)) h).1),
        (Action.run (write delivery.strict (delivery.writes p)) h).2) := by
  unfold run
  rw [Action.run_bind, Action.run_attempt]
  rcases Action.run (write delivery.strict (delivery.writes p)) h with ⟨_ | _, _⟩ <;> rfl

theorem run_run (delivery : Delivery) (p : Path) (h : Host) :
    ∃ ending, Action.run (delivery.run p) h =
      (.ok ending, (Action.run (write delivery.strict (delivery.writes p)) h).2) :=
  ⟨_, run_eq delivery p h⟩

/-- More entries are written on what the first ones have left, unless that has failed. -/
theorem run_write_append (strict : Bool) (ws more : List (Path × Entry)) (h : Host) :
    Action.run (write strict (ws ++ more)) h =
      match Action.run (write strict ws) h with
      | (.ok _, g) => Action.run (write strict more) g
      | (.error e, g) => (.error e, g) := by
  induction ws generalizing h with
  | nil => rfl
  | cons w ws ih =>
    obtain ⟨p, e⟩ := w
    rw [List.cons_append, write, write]
    cases strict with
    | true =>
      rw [if_pos rfl, if_pos rfl, Action.run_bind, Action.run_bind]
      rcases Action.run (Action.plant p e) h with ⟨_ | _, g⟩
      · rfl
      · exact ih g
    | false =>
      rw [if_neg Bool.false_ne_true, if_neg Bool.false_ne_true, Action.run_bind, Action.run_bind,
        Action.run_attempt]
      exact ih _

theorem keeps_run (hcwd : h.files.get? h.cwd.place = some .dir) (delivery : Delivery)
    (p : Path) : h.Keeps (Action.run (delivery.run p) h).2 := by
  obtain ⟨ending, hrun⟩ := run_run delivery p h
  rw [hrun]
  exact keeps_write hcwd _ _

/-- **The destination is a directory afterwards, or nothing has been written.** The destination itself
is what a delivery writes first. -/
theorem destination_of_run (hcwd : h.files.get? h.cwd.place = some .dir) (delivery : Delivery)
    (hname : h.files.Names h.cwd p loc) (hnone : h.files.get? loc = none) :
    (Action.run (delivery.run p) h).2 = h ∨
      (Action.run (delivery.run p) h).2.files.get? loc = some .dir := by
  obtain ⟨ending, hrun⟩ := run_run delivery p h
  rw [hrun]
  simp only
  cases hentries : delivery.entries with
  | none =>
    have hwrites : delivery.writes p = [] := by
      unfold writes
      rw [hentries]
    rw [hwrites]
    exact .inl rfl
  | some entries =>
    obtain ⟨rest, hwrites⟩ : ∃ rest, delivery.writes p = (p, .dir) :: rest := by
      unfold writes
      rw [hentries]
      exact ⟨_, rfl⟩
    -- The directory is made, and what is written after it keeps it.
    have hplant : Action.run (Action.plant p .dir) h =
        (.ok (), { h with files := h.files.put loc .dir }) := by
      show Action.run (Action.makeDirs p) h = _
      rw [Action.run_makeDirs, makeDirs_of_names hname hnone]
      rfl
    have hdir : (h.files.put loc .dir).get? loc = some .dir := by
      rw [get?_put_of_ne_nil hname.ne_nil, if_pos rfl]
    have hcwd' : (h.files.put loc .dir).get? h.cwd.place = some .dir := extends_put hnone _ _ hcwd
    have hrest : Action.run (write delivery.strict ((p, .dir) :: rest)) h =
        Action.run (write delivery.strict rest) { h with files := h.files.put loc .dir } := by
      rw [write]
      split
      · rw [Action.run_bind, hplant]
      · rw [Action.run_bind, Action.run_attempt, hplant]
    rw [hwrites, hrest]
    exact .inr ((keeps_write (h := { h with files := h.files.put loc .dir }) hcwd' _ _).files.get?_dir
      hdir)

end Delivery

/-! ## Confined fetchers -/

/-- The path ends in a name, in a directory that is there, and nothing stands at its place or below. -/
structure Host.IsReady (h : Host) (p : Path) : Prop where
  cwd_dir : h.files.get? h.cwd.place = some .dir
  no_slash : p.endsInSlash = false
  above : ∃ cs n dir, p.pieces = cs ++ [.name n] ∧ h.files.Leads h.cwd cs (.ofPlace dir) ∧
    h.files.get? dir = some .dir
  vacant : ∀ {loc}, h.files.Names h.cwd p loc → ∀ rel, h.files.get? (loc ++ rel) = none

/-- The fetcher writes under its destination only: when it is called for a path at which nothing
stands, in a directory that is there, nothing changes but what is at the place that the path names
and below. -/
def Fetcher.IsConfined (fetcher : Fetcher) : Prop :=
  ∀ (calls : Nat) (d : Dependency) (p : Path) (h : Host), h.IsReady p → ∀ k,
    (Action.run ((fetcher calls d p).run p) h).2.files.get? k ≠ h.files.get? k →
      ∃ loc, h.files.Names h.cwd p loc ∧ loc <+: k

/-! ## Stopped on the way -/

/-- The delivery that has been stopped after so many writes, the first of which makes the destination. -/
def Delivery.upTo (delivery : Delivery) : Nat → Delivery
  | 0 => { delivery with entries := none }
  | n + 1 => { delivery with entries := delivery.entries.map (·.take n) }

/-- The first writes are made. -/
theorem Delivery.writes_upTo (delivery : Delivery) (n : Nat) (p : Path) :
    (delivery.upTo n).writes p = (delivery.writes p).take n := by
  cases n with
  | zero => rfl
  | succ n =>
    unfold Delivery.upTo Delivery.writes
    cases delivery.entries with
    | none => rfl
    | some entries => simp [List.map_take]

/-- The fetcher writes under its destination only, wherever it is stopped. -/
def Fetcher.IsConfinedThroughout (fetcher : Fetcher) : Prop :=
  ∀ n, Fetcher.IsConfined fun calls d p => (fetcher calls d p).upTo n

end SolVendor
