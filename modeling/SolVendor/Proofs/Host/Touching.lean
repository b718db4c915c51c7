import Mathlib.Logic.Relation
import SolVendor.Proofs.Host.Keeping
/-!
# Host — changes at some paths

What an action may touch is told by paths. A change at some paths makes a
directory that is missing on the way to one of them, or changes what is at
the place that one of them names, or below (`Host.Touches`). Where a path
leads is read off the files as they are when the change is made: what is
changed at one path may be on the way to another. An action touches some
paths only if all that it does is such changes, one after the other
(`Host.IsTouched`).

Making directories, removing a tree and moving one are told so
(`IsTouched.makeDirs`, `IsTouched.removeTree`, `IsTouched.rename`).
-/

namespace SolVendor

open FileSystem

namespace Host

variable {h h' g : Host} {sites sites' : List Path} {p q : Path} {loc : Location} {α β : Type}

/-- One change at some paths. -/
inductive Touches (sites : List Path) (h h' : Host) : Prop
  /-- No file changes. -/
  | keep (files : h'.files = h.files) (cwd : h'.cwd = h.cwd)
  /-- A directory that was missing is made at one of the paths or above. -/
  | make {p q : Path} {loc : Location} (mem : p ∈ sites) (above : q.pieces <+: p.pieces)
      (names : h.files.Names h.cwd q loc) (vacant : h.files.get? loc = none)
      (files : h'.files = h.files.put loc .dir) (cwd : h'.cwd = h.cwd)
  /-- All that changes is at one of the paths or below. -/
  | change (cwd : h'.cwd = h'.files.settle h.cwd)
      (inside : ∀ k, h'.files.get? k ≠ h.files.get? k →
        ∃ p ∈ sites, ∃ loc, h.files.Names h.cwd p loc ∧ loc <+: k)

/-- Changes at some paths, one after the other. -/
def IsTouched (sites : List Path) : Host → Host → Prop :=
  Relation.ReflTransGen (Touches sites)

theorem IsTouched.refl (sites : List Path) (h : Host) : h.IsTouched sites h :=
  Relation.ReflTransGen.refl

theorem IsTouched.trans (ht : h.IsTouched sites g) (ht' : g.IsTouched sites h') :
    h.IsTouched sites h' :=
  Relation.ReflTransGen.trans ht ht'

theorem Touches.isTouched (ht : Touches sites h h') : h.IsTouched sites h' :=
  Relation.ReflTransGen.single ht

/-- What touches some paths touches no others than more of them. -/
theorem IsTouched.mono (ht : h.IsTouched sites h') (hsub : ∀ p ∈ sites, p ∈ sites') :
    h.IsTouched sites' h' := by
  refine Relation.ReflTransGen.mono (fun a b hab => ?_) _ _ ht
  cases hab with
  | keep files cwd => exact .keep files cwd
  | make mem above names vacant files cwd => exact .make (hsub _ mem) above names vacant files cwd
  | change cwd inside =>
    refine .change cwd fun k hk => ?_
    obtain ⟨p, hp, hloc⟩ := inside k hk
    exact ⟨p, hsub p hp, hloc⟩

/-- Nothing is touched if no file changes. -/
theorem IsTouched.of_eq (files : h'.files = h.files) (cwd : h'.cwd = h.cwd) : h.IsTouched sites h' :=
  (Touches.keep files cwd).isTouched

/-- What comes after another action touches the same paths as that one. -/
theorem IsTouched.bind {a : Action α} {f : α → Action β}
    (ha : h.IsTouched sites (Action.run a h).2)
    (hf : ∀ x, (Action.run a h).1 = .ok x →
      (Action.run a h).2.IsTouched sites (Action.run (f x) (Action.run a h).2).2) :
    h.IsTouched sites (Action.run (a >>= f) h).2 := by
  rw [Action.run_bind]
  rcases hrun : Action.run a h with ⟨_ | x, g⟩
  · rw [hrun] at ha
    exact ha
  · rw [hrun] at ha hf
    exact ha.trans (hf x rfl)

/-- Saying what was being done touches nothing more. -/
theorem IsTouched.during {a : Action α} {activity : Activity}
    (ha : h.IsTouched sites (Action.run a h).2) :
    h.IsTouched sites (Action.run (Action.during activity a) h).2 := by
  rw [Action.run_during]
  exact ha

/-- Looking at the host touches nothing. -/
theorem IsTouched.observe (f : Host → α) (h : Host) :
    h.IsTouched sites (Action.run (Action.observe f) h).2 :=
  .refl sites h

theorem IsTouched.ofExcept (r : Except Failure α) (h : Host) :
    h.IsTouched sites (Action.run (Action.ofExcept r) h).2 := by
  rw [Action.run_ofExcept]
  exact .refl sites h

/-! ## Operations by path -/

/-- **Making the first of some paths makes directories that are missing**, one after the other. -/
theorem isTouched_makeFirst (hp : p ∈ sites) {ps : List Path} (hps : ∀ q ∈ ps, q.pieces <+: p.pieces)
    (h : Host) : h.IsTouched sites { h with files := (makeFirst h.cwd ps h.files).2 } := by
  have hmake : ∀ {g : Host} {q : Path} {fs : FileSystem}, q.pieces <+: p.pieces →
      g.files.makeDir g.cwd q = .ok fs → g.IsTouched sites { g with files := fs } := by
    intro g q fs hq hok
    obtain ⟨loc, hname, hnone, rfl⟩ := makeDir_eq_ok_iff.1 hok
    have hmade : Touches sites g { g with files := g.files.put loc .dir } :=
      .make hp hq hname hnone rfl rfl
    exact hmade.isTouched
  induction ps with
  | nil => exact .refl sites h
  | cons q ps ih =>
    have hq := hps q List.mem_cons_self
    have habove := ih fun r hr => hps r (List.mem_cons_of_mem q hr)
    unfold makeFirst
    split
    · exact .refl sites h
    · split
      · rename_i fs hok
        exact hmake hq hok
      · -- The directory above is missing: those above are made first.
        split
        · rename_i e fs hmk
          rw [hmk] at habove
          exact habove
        · rename_i fs hmk
          rw [hmk] at habove
          split
          · rename_i fs' hok
            exact habove.trans (hmake (g := { h with files := fs }) hq hok)
          · exact habove
      · exact .refl sites h

/-- **Making a directory touches its path.** -/
theorem IsTouched.makeDirs (hp : p ∈ sites) (hq : q.pieces <+: p.pieces) (h : Host) :
    h.IsTouched sites (Action.run (Action.makeDirs q) h).2 := by
  rw [Action.run_makeDirs]
  exact isTouched_makeFirst hp (fun a ha => (Path.prefix_of_mem_ancestors ha).trans hq) h

/-- A change of the files at the places that some of the paths name. -/
theorem IsTouched.withChange {f : FileSystem → Position → Except FileError FileSystem}
    (hf : ∀ files, f h.files h.cwd = .ok files → ∀ k, files.get? k ≠ h.files.get? k →
      ∃ p ∈ sites, ∃ loc, h.files.Names h.cwd p loc ∧ loc <+: k) :
    h.IsTouched sites (Action.run (Action.change f) h).2 := by
  rw [Action.run_change]
  split
  · rename_i files hok
    exact (Touches.change rfl (hf files hok)).isTouched
  · exact .refl sites h

/-- **Removing a tree touches its path.** -/
theorem IsTouched.removeTree (hp : p ∈ sites) (h : Host) :
    h.IsTouched sites (Action.run (Action.removeTree p) h).2 := by
  unfold Action.removeTree
  refine .bind (.observe _ h) fun found _ => ?_
  split
  · refine .withChange fun files hok k hk => ?_
    obtain ⟨loc, hname, rfl⟩ := removeTree_spec hok
    exact ⟨p, hp, loc, hname, Classical.not_not.1 fun hout => hk (get?_cut_of_apart hout)⟩
  · exact .of_eq rfl rfl

/-- **Moving a tree touches both paths.** -/
theorem IsTouched.rename (hp : p ∈ sites) (hq : q ∈ sites) (h : Host) :
    h.IsTouched sites (Action.run (Action.change fun fs cwd => fs.rename cwd p q) h).2 := by
  refine .withChange fun files hok k hk => ?_
  obtain ⟨src, dst, e, hsrc, hdst, -, hfiles⟩ := rename_spec hok
  rcases hfiles with ⟨-, rfl⟩ | ⟨-, rfl⟩
  · exact absurd rfl hk
  · by_cases hd : dst <+: k
    · exact ⟨q, hq, dst, hdst, hd⟩
    · refine ⟨p, hp, src, hsrc, Classical.not_not.1 fun hs => ?_⟩
      rw [get?_graft_of_apart hsrc.ne_nil hd, if_neg hs] at hk
      exact hk rfl

end Host

end SolVendor
