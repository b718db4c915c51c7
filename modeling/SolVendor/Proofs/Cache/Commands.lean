import SolVendor.Proofs.Cache.Contents
import SolVendor.Proofs.Cache.Overlap
import SolVendor.Proofs.Cache.Steps
import SolVendor.Proofs.Concurrency.RelyGuarantee
/-!
# Cache — commands on one root

Commands that run at the same time have a storage each, with the same root,
and so no lock in common. What keeps the tree whole is that they write the
same entries: the staging tree, once it has been cleared, holds nothing
else (`IsSound`), and as long as the history is calm what a thread has
written stays there until some thread moves it (`Stage.Holds`). So whoever
moves the staging tree moves all of the entries, whoever wrote them.
-/

namespace SolVendor.Commands

open FileSystem Storage

variable {s : Storage} {fetcher : Fetcher} {d : Dependency} {entries written : List (Location × Entry)}
  {σ τ : Shared} {t u n : Nat} {g : Host} {dir : Location} {l : List Event} {α : Type}

/-- The tree is unfetched and nobody has cleared the staging path, or the staging tree is in use. -/
def IsSound (s : Storage) (d : Dependency) (entries : List (Location × Entry)) (σ : Shared) : Prop :=
  (s.IsUnfetched d σ.host ∧ ∀ t, .cleared t ∉ σ.events) ∨ ∃ dir, s.IsInUse d entries dir σ.host

/-- What a thread leaves as the others need it. -/
structure Continues (s : Storage) (d : Dependency) (entries : List (Location × Entry)) (t : Nat)
    (σ τ : Shared) : Prop where
  sound : IsSound s d entries τ
  houses : ∀ {dir}, s.Houses d dir σ.host → s.Houses d dir τ.host
  complete : s.IsComplete d entries σ.host → s.IsComplete d entries τ.host
  kept : ∀ {u}, u ≠ t → u ∈ underWay σ.events → s.IsComplete d entries τ.host ∨
    ∀ {dir rel e}, s.Houses d dir σ.host →
      σ.host.files.get? (dir ++ [d.stagingName] ++ rel) = some e →
        τ.host.files.get? (dir ++ [d.stagingName] ++ rel) = some e

/-- What a thread guarantees as long as the history is calm. -/
structure Guarantees (s : Storage) (d : Dependency) (entries : List (Location × Entry)) (t : Nat)
    (σ τ : Shared) : Prop where
  events : ∃ more, τ.events = σ.events ++ more ∧ ∀ e ∈ more, e.thread = t
  continues : IsCalm τ.events → IsSound s d entries σ → Continues s d entries t σ τ

/-- A thread relies on what the others guarantee. -/
def contract (s : Storage) (d : Dependency) (entries : List (Location × Entry)) (t : Nat) :
    Contract Shared where
  rely := Relation.ReflTransGen fun σ τ => ∃ u, u ≠ t ∧ Guarantees s d entries u σ τ
  guar := Guarantees s d entries t
  live _ := True
  refl _ := .refl
  trans := .trans

/-! ## What a thread knows -/

/-- How far a thread has come. -/
inductive Stage where
  /-- It has nothing to do with the trees. -/
  | outside
  /-- The directory of the owner has been there. -/
  | housed
  /-- The staging path has been cleared. -/
  | cleared
  /-- The fetcher has been called, and has written some entries. -/
  | writing (written : List (Location × Entry))
  /-- The tree has been complete. -/
  | complete

/-- A step that succeeds leads to a stage that may depend on its result; one that fails leads out. -/
def Stage.onOk {α : Type} (next : α → Stage) : Except Failure α → Stage
  | .ok a => next a
  | .error _ => outside

/-- What is so then, and remains so whatever the others do. -/
def Stage.Holds (s : Storage) (d : Dependency) (entries : List (Location × Entry)) (t : Nat)
    (σ : Shared) : Stage → Prop
  | outside => True
  | housed => ∃ dir, s.Houses d dir σ.host
  | cleared => .cleared t ∈ σ.events
  | writing written => .cleared t ∈ σ.events ∧ t ∈ underWay σ.events ∧
      (written ≠ [] → CanName (s.stagingPath d) d.stagingName) ∧
      (s.IsComplete d entries σ.host ∨ ∃ dir, s.Houses d dir σ.host ∧
        ∀ w ∈ written, σ.host.files.get? (dir ++ [d.stagingName] ++ w.1) = some w.2)
  | complete => s.IsComplete d entries σ.host

variable {stage : Stage}

theorem Stage.Holds.of_guarantees (hs : stage.Holds s d entries t σ) (hne : u ≠ t)
    (hg : Guarantees s d entries u σ τ) (hcalm : IsCalm τ.events) (hsound : IsSound s d entries σ) :
    stage.Holds s d entries t τ := by
  have hc := hg.continues hcalm hsound
  obtain ⟨more, hmore, hown⟩ := hg.events
  have hmem : ∀ {e}, e ∈ σ.events → e ∈ τ.events := by
    intro e he
    rw [hmore]
    exact List.mem_append_left _ he
  cases stage with
  | outside => trivial
  | housed =>
    obtain ⟨dir, hh⟩ := hs
    exact ⟨dir, hc.houses hh⟩
  | cleared => exact hmem hs
  | writing written =>
    obtain ⟨hcleared, hunder, hcan, hwritten⟩ := hs
    refine ⟨hmem hcleared, ?_, hcan, ?_⟩
    · rw [hmore, mem_underWay_append fun e he => by rw [hown e he]; exact hne]
      exact hunder
    · rcases hwritten with hcomplete | ⟨dir, hh, hall⟩
      · exact .inl (hc.complete hcomplete)
      · rcases hc.kept (Ne.symm hne) hunder with hcomplete | hkept
        · exact .inl hcomplete
        · exact .inr ⟨dir, hc.houses hh, fun w hw => hkept hh (hall w hw)⟩
  | complete => exact hc.complete hs

/-- If the history is calm so far, the host is as it has to be and the thread has come this far. -/
def Knows (s : Storage) (d : Dependency) (entries : List (Location × Entry)) (t : Nat) (stage : Stage)
    (σ : Shared) : Prop :=
  IsCalm σ.events → IsSound s d entries σ ∧ stage.Holds s d entries t σ

/-- **What a thread knows remains so.** -/
theorem Knows.of_rely (hk : Knows s d entries t stage σ) (hr : (contract s d entries t).rely σ τ) :
    Knows s d entries t stage τ := by
  induction hr with
  | refl => exact hk
  | tail _ hstep ih =>
    obtain ⟨u, hne, hg⟩ := hstep
    intro hcalm
    obtain ⟨more, hmore, -⟩ := hg.events
    have hbefore : IsCalm _ := IsCalm.of_append (hmore ▸ hcalm)
    obtain ⟨hsound, hs⟩ := ih hbefore
    exact ⟨(hg.continues hcalm hsound).sound, hs.of_guarantees hne hg hcalm hsound⟩

/-- **A step of a thread** takes it from one stage to another. -/
theorem Knows.safe_act {a : Action α} {happened : Except Failure α → List Event}
    {post : Except Failure α → Shared → Prop} (hk : Knows s d entries t stage σ)
    (next : Except Failure α → Stage) (hown : ∀ r, ∀ e ∈ happened r, e.thread = t)
    (hstep : ∀ {τ r g}, Action.run a τ.host = (r, g) → IsCalm (τ.events ++ happened r) →
      IsSound s d entries τ → stage.Holds s d entries t τ →
      Continues s d entries t τ (τ.become g (happened r)) ∧
        (next r).Holds s d entries t (τ.become g (happened r)))
    (hpost : ∀ r τ, Knows s d entries t (next r) τ → post r τ) :
    (act a happened).Safe (contract s d entries t) post σ := by
  refine Process.safe_atomic fun τ hτ => ?_
  have hk := hk.of_rely hτ
  rcases hrun : Action.run a τ.host with ⟨r, g⟩
  have hact : Shared.act a happened τ = (r, τ.become g (happened r)) := by
    unfold Shared.act
    rw [hrun]
    rfl
  rw [hact]
  refine ⟨trivial, ⟨⟨happened r, rfl, hown r⟩, fun hcalm hsound => ?_⟩, fun υ hυ => hpost r υ ?_⟩
  · exact (hstep hrun hcalm hsound (hk hcalm.of_append).2).1
  · refine Knows.of_rely (fun hcalm => ?_) hυ
    obtain ⟨hsound, hs⟩ := hk (IsCalm.of_append hcalm)
    obtain ⟨hc, hnext⟩ := hstep hrun hcalm hsound hs
    exact ⟨hc.sound, hnext⟩

/-! ## What the steps do -/

/-- Nothing is done that the others could see. -/
theorem continues_of_same (hsound : IsSound s d entries σ) (hfiles : τ.host.files = σ.host.files)
    (hcwd : τ.host.cwd = σ.host.cwd) (hevents : τ.events = σ.events ++ l)
    (hl : ∀ t, .cleared t ∉ l) : Continues s d entries t σ τ where
  sound := by
    rcases hsound with ⟨hu, hnot⟩ | ⟨dir, hu⟩
    · refine .inl ⟨hu.congr hfiles hcwd, fun t ht => ?_⟩
      rw [hevents] at ht
      rcases List.mem_append.1 ht with ht | ht
      · exact hnot t ht
      · exact hl t ht
    · exact .inr ⟨dir, hu.congr hfiles hcwd⟩
  houses hh := hh.mono hcwd (by rw [hfiles]; exact (Extends.refl _).retains)
  complete hc := hc.congr hfiles hcwd
  kept _ _ := .inr fun _ he => by rw [hfiles]; exact he

/-- The staging tree is in use before and after. -/
theorem continues_of_advances (hu : s.IsInUse d entries dir σ.host)
    (ha : s.Advances d entries dir σ.host g) : Continues s d entries t σ (σ.become g l) where
  sound := .inr ⟨dir, ha.isInUse⟩
  houses hh := by
    rw [hh.unique hu.houses]
    exact ha.isInUse.houses
  complete := ha.complete
  kept _ _ := ha.kept.imp id fun hkept dir' rel e hh he => by
    obtain rfl := hh.unique hu.houses
    exact hkept he

/-- Where the staging path has been cleared, the staging tree is in use. -/
theorem IsSound.isInUse (hsound : IsSound s d entries σ) (hcleared : .cleared t ∈ σ.events) :
    ∃ dir, s.IsInUse d entries dir σ.host :=
  hsound.resolve_left fun h => h.2 t hcleared

/-- **A tree that is cached is complete.** -/
theorem IsSound.isComplete (hsound : IsSound s d entries σ) (hd : d.IsAccepted)
    (hcached : s.isCached d σ.host = true) : s.IsComplete d entries σ.host := by
  rcases hsound with ⟨hu, -⟩ | ⟨dir, hu⟩
  · rw [hu.not_isCached hd] at hcached
    cases hcached
  · exact hu.isComplete hd hcached

theorem not_isComplete_of_isUnfetched {h : Host} (hu : s.IsUnfetched d h) :
    ¬ s.IsComplete d entries h := by
  rintro ⟨loc, hname, hall⟩
  have hroot := hall []
  rw [hu.tree hname] at hroot
  cases hroot

/-- **The directory of the owner is made.** Nothing that was there is lost. -/
theorem continues_of_prepare {r : Except Failure Unit} (hd : d.IsAccepted)
    (hsound : IsSound s d entries σ) (hrun : Action.run (s.prepare d) σ.host = (r, g)) :
    Continues s d entries t σ (σ.become g []) ∧ (r = .ok () → ∃ dir, s.Houses d dir g) := by
  rcases hsound with ⟨hu, hnot⟩ | ⟨dir, hu⟩
  · obtain ⟨hu', hok⟩ := hu.prepare hd hrun
    have hkeeps : σ.host.Keeps g ∧ g.files.Extends σ.host.files := by
      unfold Storage.prepare at hrun
      split at hrun
      · rename_i parent _
        rw [Action.run_during, Action.run_makeDirs] at hrun
        obtain ⟨-, rfl⟩ := Prod.mk.inj hrun
        have hext := (addsDirs_makeDirs σ.host.files σ.host.cwd parent).extends_old
        exact ⟨⟨rfl, hext.retains⟩, hext⟩
      · obtain ⟨-, rfl⟩ := Prod.mk.inj hrun
        exact ⟨.refl _, .refl _⟩
    refine ⟨⟨.inl ⟨hu', fun t ht => ?_⟩, fun hh => hh.mono hkeeps.1.cwd hkeeps.1.files,
      fun hc => ?_, fun _ _ => .inr fun _ he => hkeeps.2 _ _ he⟩, hok⟩
    · rw [show (σ.become g []).events = σ.events from List.append_nil _] at ht
      exact hnot t ht
    · exact absurd hc (not_isComplete_of_isUnfetched hu)
  · obtain rfl := hu.houses.prepare hd hu.cwd_dir hrun
    refine ⟨continues_of_same (.inr ⟨dir, hu⟩) rfl rfl rfl (by simp), fun _ => ⟨dir, hu.houses⟩⟩

/-- **What is at the staging path is removed**, while no call is under way. -/
theorem continues_of_remove {files : FileSystem} (hd : d.IsAccepted) (hsound : IsSound s d entries σ)
    (hrm : σ.host.files.removeTree σ.host.cwd (s.stagingPath d) = .ok files)
    (hcalm : IsCalm (σ.events ++ .removed t :: l)) :
    Continues s d entries t σ (σ.become (σ.host.withFiles files) (.removed t :: l)) := by
  have hnobody : ∀ {u}, u ∉ underWay σ.events := by
    rw [hcalm.underWay_eq_nil]
    exact List.not_mem_nil
  rcases hsound with ⟨hu, -⟩ | ⟨dir, hu⟩
  · obtain ⟨hu', hvacant, dir, hh, hh'⟩ := hu.remove hd hrm
    refine ⟨.inr ⟨dir, hu'.isInUse hd hh' hvacant⟩, fun hh'' => ?_, fun hc => ?_,
      fun _ hunder => absurd hunder hnobody⟩
    · rw [hh''.unique hh]
      exact hh'
    · exact absurd hc (not_isComplete_of_isUnfetched hu)
  · obtain ⟨hu', hcomplete⟩ := hu.remove hd hrm
    refine ⟨.inr ⟨dir, hu'⟩, fun hh => ?_, hcomplete, fun _ hunder => absurd hunder hnobody⟩
    rw [hh.unique hu.houses]
    exact hu'.houses

/-- **The staging path is cleared**, or what is left there cannot be removed. -/
theorem Knows.safe_clear (hk : Knows s d entries t .housed σ) (hd : d.IsAccepted) :
    (clear t s d).Safe (contract s d entries t)
      (fun r τ => r = .ok () → Knows s d entries t .cleared τ) σ := by
  unfold clear
  -- Nothing is found: the staging tree may be used from now on.
  refine Task.Safe.andThen (hk.safe_act (.onOk fun found => if found then .housed else .cleared)
    (fun r e he => ?_)
    (fun {τ r g} hrun _ hsound hs => ?_) fun r τ hk => ?_)
  · split at he
    · rw [List.mem_singleton.1 he]
      rfl
    · exact absurd he List.not_mem_nil
  · rw [Action.run_observe] at hrun
    obtain ⟨rfl, rfl⟩ := Prod.mk.inj hrun
    cases hfound : τ.host.pathExists (s.stagingPath d) with
    | true => exact ⟨continues_of_same hsound rfl rfl rfl (by simp), hs⟩
    | false =>
      obtain ⟨dir, hh⟩ := hs
      have hu : ∃ dir, s.IsInUse d entries dir τ.host := by
        rcases hsound with ⟨hu, -⟩ | hu
        · exact ⟨dir, hu.isInUse hd hh (hu.isVacant hfound)⟩
        · exact hu
      obtain ⟨dir, hu⟩ := hu
      exact ⟨continues_of_advances hu ⟨hu, id, .inr id⟩, List.mem_append_right _ (by simp)⟩
  · cases r with
    | error e => exact fun υ _ h => (by cases h)
    | ok found =>
      cases found with
      | false => exact fun υ hυ _ => hk.of_rely hυ
      | true =>
        simp only [if_true]
        refine hk.safe_act (.onOk fun _ => .cleared) (fun r e he => ?_)
          (fun {τ r g} hrun hcalm hsound hs => ?_) fun r τ hk hok => ?_
        · cases r with
          | ok u =>
            simp only [List.mem_cons, List.not_mem_nil, or_false] at he
            rcases he with rfl | rfl
            · rfl
            · rfl
          | error cause => exact absurd he List.not_mem_nil
        · rw [Action.run_during, Action.run_change] at hrun
          cases hrm : τ.host.files.removeTree τ.host.cwd (s.stagingPath d) with
          | error cause =>
            rw [hrm] at hrun
            replace hrun : (.error (.during (.removeTree (s.stagingPath d)) (.file cause)), τ.host) =
              (r, g) := hrun
            obtain ⟨rfl, rfl⟩ := Prod.mk.inj hrun
            exact ⟨continues_of_same hsound rfl rfl rfl (by simp), trivial⟩
          | ok files =>
            rw [hrm] at hrun
            replace hrun : (.ok (), τ.host.withFiles files) = (r, g) := hrun
            obtain ⟨rfl, rfl⟩ := Prod.mk.inj hrun
            exact ⟨continues_of_remove hd hsound hrm hcalm, List.mem_append_right _ (by simp)⟩
        · rw [hok] at hk
          exact hk

/-! ## A call of the fetcher -/

/-- What has been written is there still. -/
theorem Stage.Holds.of_advances (hs : (Stage.writing written).Holds s d entries t σ)
    (hu : s.IsInUse d entries dir σ.host) (ha : s.Advances d entries dir σ.host g)
    (hl : t ∈ underWay (σ.events ++ l)) :
    (Stage.writing written).Holds s d entries t (σ.become g l) := by
  obtain ⟨hcleared, -, hcan, hwritten⟩ := hs
  refine ⟨List.mem_append_left _ hcleared, hl, hcan, ?_⟩
  rcases hwritten with hcomplete | ⟨dir', hh, hall⟩
  · exact .inl (ha.complete hcomplete)
  · obtain rfl := hh.unique hu.houses
    rcases ha.kept with hcomplete | hkept
    · exact .inl hcomplete
    · exact .inr ⟨dir', ha.isInUse.houses, fun w hw => hkept (hall w hw)⟩

/-- One more entry has been written. -/
theorem Stage.Holds.concat {w : Location × Entry} (hs : (Stage.writing written).Holds s d entries t σ)
    (hcan : CanName (s.stagingPath d) d.stagingName) (hh : s.Houses d dir σ.host)
    (hat : σ.host.files.get? (dir ++ [d.stagingName] ++ w.1) = some w.2) :
    (Stage.writing (written ++ [w])).Holds s d entries t σ := by
  obtain ⟨hcleared, hunder, -, hwritten⟩ := hs
  refine ⟨hcleared, hunder, fun _ => hcan, hwritten.imp id ?_⟩
  rintro ⟨dir', hh', hall⟩
  obtain rfl := hh'.unique hh
  refine ⟨dir', hh, fun w' hw' => ?_⟩
  rcases List.mem_append.1 hw' with hw' | hw'
  · exact hall w' hw'
  · rw [List.mem_singleton.1 hw']
    exact hat

/-- What is known when a write has been tried. -/
def Stage.after (written : List (Location × Entry)) : Except Failure Unit → Stage
  | .ok () => writing written
  | .error _ => outside

/-- **The destination is made.** -/
theorem Knows.safe_destination (hk : Knows s d entries t (.writing []) σ) (hd : d.IsAccepted)
    {post : Except Failure Unit → Shared → Prop}
    (hpost : ∀ r τ, Knows s d entries t (.after [([], .dir)] r) τ → post r τ) :
    (act (Action.plant (s.stagingPath d) .dir)).Safe (contract s d entries t) post σ := by
  refine hk.safe_act (.after [([], .dir)]) (by simp) (fun {τ r g} hrun _ hsound hs => ?_) hpost
  obtain ⟨dir, hu⟩ := hsound.isInUse hs.1
  obtain ⟨ha, hok⟩ := hu.plant_destination hd hrun
  refine ⟨continues_of_advances hu ha, ?_⟩
  have hunder : t ∈ underWay (τ.events ++ []) := by
    rw [List.append_nil]
    exact hs.2.1
  cases r with
  | error e => trivial
  | ok u =>
    obtain ⟨hcan, hat⟩ := hok rfl
    refine (hs.of_advances hu ha hunder).concat hcan ha.isInUse.houses (w := ([], .dir)) ?_
    rw [List.append_nil]
    exact hat

/-- **Entries are written one by one**, whatever the others do between. -/
theorem Knows.safe_writeEach {rest : List (Location × Entry)} (hd : d.IsAccepted)
    (hc : AreConsistent entries) (hne : written ≠ []) (hrest : ∀ w ∈ rest, w ∈ entries)
    (hk : Knows s d entries t (.writing written) σ) :
    (writeEach true (rest.map fun (rel, e) => ((s.stagingPath d).join (.ofNames rel), e))).Safe
      (contract s d entries t) (fun r τ => Knows s d entries t (.after (written ++ rest) r) τ) σ := by
  induction rest generalizing written σ with
  | nil =>
    intro τ hτ
    rw [List.append_nil]
    exact hk.of_rely hτ
  | cons w rest ih =>
    obtain ⟨rel, e⟩ := w
    have hw : (rel, e) ∈ entries := hrest _ List.mem_cons_self
    obtain ⟨hrel, hnames⟩ := hc.names _ hw
    rw [List.map_cons, writeEach, if_pos rfl, List.append_cons]
    refine Task.Safe.andThen (hk.safe_act (.after (written ++ [(rel, e)])) (by simp)
      (fun {τ r g} hrun _ hsound hs => ?_) fun r τ hk => ?_)
    · obtain ⟨dir, hu⟩ := hsound.isInUse hs.1
      have hcan := hs.2.2.1 hne
      obtain ⟨ha, hok⟩ := hu.plant hd hcan (Path.pieces_join_ofNames hnames)
        (Path.endsInSlash_join_ofNames hnames hrel) (hc.entry _ hw)
        (fun r hr hne => hc.above _ hw r (Location.mem_above.2 ⟨hr, hne⟩)) hrun
      refine ⟨continues_of_advances hu ha, ?_⟩
      have hunder : t ∈ underWay (τ.events ++ []) := by
        rw [List.append_nil]
        exact hs.2.1
      cases r with
      | error cause => trivial
      | ok u => exact (hs.of_advances hu ha hunder).concat hcan ha.isInUse.houses (hok rfl)
    · cases r with
      | error cause => exact fun υ hυ => hk.of_rely hυ
      | ok u => exact ih (by simp) (fun w hw => hrest w (List.mem_cons_of_mem _ hw)) hk

/-- What is known when the call has ended. -/
def Stage.ended (entries : List (Location × Entry)) (ending : Ending) : Stage :=
  if ending = .done then writing (([], .dir) :: entries) else outside

/-- A thread may forget what it knows. -/
theorem Knows.forget (hk : Knows s d entries t stage σ) : Knows s d entries t .outside σ :=
  fun hcalm => ⟨(hk hcalm).1, trivial⟩

/-- All is written that is to be, or the call fails. -/
theorem Knows.safe_writes (hk : Knows s d entries t (.writing []) σ) (ending : Ending)
    (hd : d.IsAccepted) (hc : AreConsistent entries) (hwritten : ∀ w ∈ written, w ∈ entries) :
    (writeEach true (Delivery.writes ⟨some written, true, ending⟩ (s.stagingPath d))).Safe
      (contract s d entries t)
      (fun r τ => Knows s d entries t (.after ([([], .dir)] ++ written) r) τ) σ := by
  have hwrites : Delivery.writes ⟨some written, true, ending⟩ (s.stagingPath d) =
      (s.stagingPath d, .dir) ::
        written.map fun (rel, e) => ((s.stagingPath d).join (.ofNames rel), e) := rfl
  rw [hwrites, writeEach, if_pos rfl]
  refine Task.Safe.andThen (hk.safe_destination hd fun r τ hk => ?_)
  cases r with
  | error e => exact fun υ hυ => hk.of_rely hυ
  | ok u => exact Knows.safe_writeEach hd hc (by simp) hwritten hk

/-- The call has ended. -/
theorem Knows.safe_ended {ending : Ending} {r : Except Failure Unit}
    (hk : Knows s d entries t (.after ([([], .dir)] ++ written) r) σ)
    (hwritten : ∀ w ∈ entries, w ∈ written) (hending : ending = .done → r = .ok ()) :
    (act (pure ending) fun _ => [.ended t ending]).Safe (contract s d entries t) (fun r τ =>
      ∀ ending, r = .ok ending → Knows s d entries t (.ended entries ending) τ) σ := by
  refine hk.safe_act (.onOk (.ended entries))
    (fun r e he => ?_) (fun {τ r g} hrun _ hsound hs => ?_) fun r τ hk ending hr => ?_
  · rw [List.mem_singleton.1 he]
    rfl
  · rw [Action.run_pure] at hrun
    obtain ⟨rfl, rfl⟩ := Prod.mk.inj hrun
    refine ⟨continues_of_same hsound rfl rfl rfl (by simp), ?_⟩
    show (Stage.ended entries ending).Holds s d entries t (τ.become τ.host [.ended t ending])
    unfold Stage.ended
    split
    · rename_i heq
      rw [hending heq] at hs
      obtain ⟨hcleared, hunder, hcan, hall⟩ := hs
      rw [heq]
      refine ⟨List.mem_append_left _ hcleared, mem_underWay_done hunder, fun _ => hcan (by simp),
        hall.imp id ?_⟩
      rintro ⟨dir, hh, hall⟩
      refine ⟨dir, hh, fun w hw => hall w ?_⟩
      rcases List.mem_cons.1 hw with rfl | hw
      · exact List.mem_cons_self
      · exact List.mem_cons_of_mem _ (hwritten w hw)
    · trivial
  · rw [hr] at hk
    exact hk

/-- **A call of the fetcher** that ends well has written all the entries. -/
theorem Knows.safe_callEach (hk : Knows s d entries t .cleared σ) (hd : d.IsAccepted)
    (hc : AreConsistent entries) (hf : fetcher.Delivers d entries) :
    (callEach t ⟨s.root, n⟩ fetcher d).Safe (contract s d entries t) (fun r τ => ∀ ending,
      r = .ok ending → Knows s d entries t (.ended entries ending) τ) σ := by
  have hstaging : (⟨s.root, n⟩ : Storage).stagingPath d = s.stagingPath d := rfl
  unfold callEach begin
  rw [hstaging]
  refine Task.Safe.andThen (hk.safe_act (fun _ => .writing []) (fun r e he => ?_)
    (fun {τ r g} hrun _ hsound hs => ?_) fun r τ hk => ?_)
  · rw [List.mem_singleton.1 he]
    rfl
  · obtain ⟨hfiles, hcwd⟩ : g.files = τ.host.files ∧ g.cwd = τ.host.cwd := by
      obtain ⟨-, rfl⟩ := Prod.mk.inj hrun
      exact ⟨rfl, rfl⟩
    have hcontinues := continues_of_same (t := t) (τ := τ.become g [.started t]) hsound hfiles hcwd
      rfl (by simp)
    obtain ⟨dir, hu⟩ := hsound.isInUse hs
    exact ⟨hcontinues, List.mem_append_left _ hs, mem_underWay_started, fun h => absurd rfl h,
      .inr ⟨dir, hcontinues.houses hu.houses, by simp⟩⟩
  cases r with
  | error e => exact fun υ _ ending h => by cases h
  | ok calls =>
    obtain ⟨written, ending, hdelivery, hwritten⟩ := hf calls (s.stagingPath d)
    simp only [hdelivery]
    have hwrites := hk.safe_writes ending hd hc fun w hw => (hwritten w).1 hw
    refine Task.Safe.andThen (Task.Safe.attempt (Process.Safe.mono hwrites fun r τ hk υ hυ => ?_))
    refine (hk.of_rely hυ).safe_ended (fun w hw => (hwritten w).2 hw) fun hdone => ?_
    cases r with
    | ok u => rfl
    | error cause => cases hdone

/-! ## A whole fetch -/

/-- **The tree is moved** when all has been written: it is complete then, whoever has moved it. -/
theorem Knows.safe_place (hk : Knows s d entries t (.ended entries .done) σ) (hd : d.IsAccepted)
    (hc : AreConsistent entries) {happened : Except Failure Unit → List Event}
    (hown : ∀ r, ∀ e ∈ happened r, e = .moved t) :
    (act (s.place d) happened).Safe (contract s d entries t)
      (fun r τ => r = .ok () → Knows s d entries t .complete τ) σ := by
  have hnot : ∀ r u, .cleared u ∉ happened r := by
    intro r u hmem
    cases hown r _ hmem
  refine hk.safe_act (.onOk fun _ => .complete) (fun r e he => ?_)
    (fun {τ r g} hrun _ hsound hs => ?_) fun r τ hk hok => ?_
  · rw [hown r e he]
    rfl
  · obtain ⟨hcleared, -, hcan, hwritten⟩ := hs
    obtain ⟨dir, hu⟩ := hsound.isInUse hcleared
    unfold Storage.place at hrun
    rw [Action.run_during, Action.run_change] at hrun
    cases hrn : τ.host.files.rename τ.host.cwd (s.stagingPath d) (s.treePath d) with
    | error cause =>
      rw [hrn] at hrun
      replace hrun : (.error (.during (.moveTree (s.stagingPath d) (s.treePath d)) (.file cause)),
        τ.host) = (r, g) := hrun
      obtain ⟨rfl, rfl⟩ := Prod.mk.inj hrun
      exact ⟨continues_of_same hsound rfl rfl rfl (hnot _), trivial⟩
    | ok files =>
      rw [hrn] at hrun
      replace hrun : (.ok (), τ.host.withFiles files) = (r, g) := hrun
      obtain ⟨rfl, rfl⟩ := Prod.mk.inj hrun
      have hfull : s.IsComplete d entries τ.host ∨ ∀ rel,
          τ.host.files.get? (dir ++ [d.stagingName] ++ rel) = contents entries rel := by
        refine hwritten.imp id ?_
        rintro ⟨dir', hh, hall⟩
        obtain rfl := hh.unique hu.houses
        have hroot := hall ([], .dir) List.mem_cons_self
        rw [List.append_nil] at hroot
        exact hu.full (hcan (by simp)) hroot hc fun w hw => hall w (List.mem_cons_of_mem _ hw)
      obtain ⟨hu', hcomplete⟩ := hu.place hd hfull hrn
      exact ⟨continues_of_advances hu ⟨hu', fun _ => hcomplete, .inl hcomplete⟩, hcomplete⟩
  · rw [hok] at hk
    exact hk

/-- What a failed call has written is removed, whoever has written it. -/
theorem Knows.safe_discardEach (hk : Knows s d entries t .outside σ) (hd : d.IsAccepted) :
    (discardEach t s d).Safe (contract s d entries t) (fun _ τ => Knows s d entries t .outside τ) σ := by
  unfold discardEach
  refine Task.Safe.andThen (hk.safe_act (fun _ => .outside) (by simp)
    (fun {τ r g} hrun _ hsound _ => ?_) fun r τ hk => ?_)
  · rw [Action.run_observe] at hrun
    obtain ⟨rfl, rfl⟩ := Prod.mk.inj hrun
    exact ⟨continues_of_same hsound rfl rfl rfl (by simp), trivial⟩
  cases r with
  | error e => exact fun υ hυ => hk.of_rely hυ
  | ok found =>
    cases found with
    | false => exact fun υ hυ => hk.of_rely hυ
    | true =>
      simp only [if_true]
      refine Task.Safe.andThen (hk.safe_act (fun _ => .outside) (fun r e he => ?_)
        (fun {τ r g} hrun hcalm hsound _ => ?_) fun r τ hk => ?_)
      · split at he
        · rw [List.mem_singleton.1 he]
          rfl
        · exact absurd he List.not_mem_nil
      · rw [Action.run_attempt, Action.run_change] at hrun
        cases hrm : τ.host.files.removeTree τ.host.cwd (s.stagingPath d) with
        | error cause =>
          rw [hrm] at hrun
          replace hrun : (.ok (.error (.file cause)), τ.host) = (r, g) := hrun
          obtain ⟨rfl, rfl⟩ := Prod.mk.inj hrun
          exact ⟨continues_of_same hsound rfl rfl rfl (by simp), trivial⟩
        | ok files =>
          rw [hrm] at hrun
          replace hrun : (.ok (.ok ()), τ.host.withFiles files) = (r, g) := hrun
          obtain ⟨rfl, rfl⟩ := Prod.mk.inj hrun
          exact ⟨continues_of_remove hd hsound hrm hcalm, trivial⟩
      · cases r with
        | error e => exact fun υ hυ => hk.of_rely hυ
        | ok x => exact fun υ hυ => hk.of_rely hυ

/-- What a thread that has ended well has come to: it gives the value, and the tree is complete. -/
def EndsWell (s : Storage) (d : Dependency) (entries : List (Location × Entry)) (t : Nat) (value : α)
    (r : Except Failure α) (σ : Shared) : Prop :=
  ∀ x, r = .ok x → x = value ∧ Knows s d entries t .complete σ

theorem EndsWell.of_rely {value : α} {r : Except Failure α} (h : EndsWell s d entries t value r σ)
    (hr : (contract s d entries t).rely σ τ) : EndsWell s d entries t value r τ :=
  fun x hx => ⟨(h x hx).1, (h x hx).2.of_rely hr⟩

theorem endsWell_error {value : α} {e : Failure} : EndsWell s d entries t value (.error e) σ :=
  fun _ h => by cases h

/-- **What a thread does with the lock of its own storage.** -/
theorem Knows.safe_fetchLocked (hk : Knows s d entries t .outside σ) (hd : d.IsAccepted)
    (hc : AreConsistent entries) (hf : fetcher.Delivers d entries) :
    (fetchLocked t ⟨s.root, n⟩ fetcher d).Safe (contract s d entries t)
      (EndsWell s d entries t (s.treePath d)) σ := by
  have hclear : clear t ⟨s.root, n⟩ d = clear t s d := rfl
  have hdiscard : discardEach t ⟨s.root, n⟩ d = discardEach t s d := rfl
  unfold fetchLocked
  rw [hclear, hdiscard]
  -- If the tree is there it is complete.
  refine Task.Safe.andThen (hk.safe_act (.onOk fun found => if found then .complete else .outside) (by simp)
    (fun {τ r g} hrun _ hsound _ => ?_) fun r τ hk => ?_)
  · rw [Action.run_observe] at hrun
    obtain ⟨rfl, rfl⟩ := Prod.mk.inj hrun
    refine ⟨continues_of_same hsound rfl rfl rfl (by simp), ?_⟩
    cases hcached : τ.host.isDir ((⟨s.root, n⟩ : Storage).treePath d) with
    | false => trivial
    | true => exact hsound.isComplete hd hcached
  cases r with
  | error e => exact fun _ _ => endsWell_error
  | ok found =>
  cases found with
  | true =>
    simp only [if_true]
    exact fun υ hυ x hx => ⟨(Except.ok.inj hx).symm, hk.of_rely hυ⟩
  | false =>
  simp only [Bool.false_eq_true, if_false]
  refine Task.Safe.andThen (hk.safe_act (.onOk fun _ => .housed) (by simp)
    (fun {τ r g} hrun _ hsound _ => ?_) fun r τ hk => ?_)
  · obtain ⟨hcontinues, hok⟩ := continues_of_prepare (s := s) hd hsound hrun
    refine ⟨hcontinues, ?_⟩
    cases r with
    | error e => trivial
    | ok u => exact hok rfl
  cases r with
  | error e => exact fun _ _ => endsWell_error
  | ok u =>
  refine Task.Safe.andThen (Process.Safe.mono (hk.safe_clear hd) fun r τ hk => ?_)
  cases r with
  | error e => exact fun _ _ => endsWell_error
  | ok u =>
  refine Task.Safe.andThen (Process.Safe.mono ((hk rfl).safe_callEach hd hc hf) fun r τ hk => ?_)
  cases r with
  | error e => exact fun _ _ => endsWell_error
  | ok ending =>
  have hk := hk ending rfl
  cases ending with
  | done =>
    refine Task.Safe.andThen (Process.Safe.mono (hk.safe_place hd hc fun r e he => ?_) fun r τ hk => ?_)
    · split at he
      · exact List.mem_singleton.1 he
      · exact absurd he List.not_mem_nil
    · cases r with
      | error e => exact fun _ _ => endsWell_error
      | ok u => exact fun υ hυ x hx => ⟨(Except.ok.inj hx).symm, (hk rfl).of_rely hυ⟩
  | failed cause =>
    refine Task.Safe.andThen (Process.Safe.mono (hk.forget.safe_discardEach hd) fun r τ _ => ?_)
    cases r with
    | error e => exact fun _ _ => endsWell_error
    | ok u => exact fun _ _ => endsWell_error
  | crashed =>
    refine Task.Safe.andThen (hk.forget.safe_act (fun _ => .outside) (by simp)
      (fun {τ r g} hrun _ hsound _ => ?_) fun r τ _ => ?_)
    · obtain ⟨hfiles, hcwd⟩ : g.files = τ.host.files ∧ g.cwd = τ.host.cwd := by
        obtain ⟨-, rfl⟩ := Prod.mk.inj hrun
        exact ⟨rfl, rfl⟩
      exact ⟨continues_of_same hsound hfiles hcwd rfl (by simp), trivial⟩
    · cases r with
      | error e => exact fun _ _ => endsWell_error
      | ok u => exact fun _ _ => endsWell_error

end SolVendor.Commands
