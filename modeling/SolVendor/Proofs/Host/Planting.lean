import SolVendor.Proofs.FileSystem.Below
import SolVendor.Proofs.Host.Keeping
import SolVendor.Proofs.Path.Descent
/-!
# Host — planting below a directory

An entry may be planted at a path that goes down from a directory through
names. If no link is on the way then, besides the entry itself, nothing but
directories on the way to it is new, however far the planting comes
(`Reaches.of_plant_ne`). If it succeeds the entry stands at the place of the
names (`Reaches.get?_of_plant`).
-/

namespace SolVendor.Host

open FileSystem

variable {h g : Host} {p q : Path} {dir k : Location} {names : List OsString} {n : OsString} {e : Entry}

/-- A path leads to a directory that stands. -/
structure Reaches (h : Host) (p : Path) (dir : Location) : Prop where
  cwd_dir : h.files.get? h.cwd.place = some .dir
  leads : h.files.Leads h.cwd p.pieces (.ofPlace dir)
  dir : h.files.get? dir = some .dir

theorem Reaches.keeps (hr : h.Reaches p dir) (hk : h.Keeps g) : g.Reaches p dir where
  cwd_dir := hk.cwd_dir hr.cwd_dir
  leads := by
    rw [hk.cwd]
    exact hr.leads.retained hk.files
  dir := hk.files.get?_dir hr.dir

/-- The place is below a directory on the way that some names go, and it is in a directory itself, under a
name that can be followed. -/
structure IsOnWay (files : FileSystem) (dir : Location) (names : List OsString) (k : Location) :
    Prop where
  below : ∃ rel, rel <+: names ∧ rel ≠ [] ∧ k = dir ++ rel
  named : ∀ above n, k = above ++ [n] →
    files.get? above = some .dir ∧ isTooLong n = false ∧ IsFileName n

theorem IsOnWay.retained {files files' : FileSystem} (hw : IsOnWay files dir names k)
    (hk : files'.Retains files) : IsOnWay files' dir names k where
  below := hw.below
  named above n hkn := by
    obtain ⟨hdir, hname⟩ := hw.named above n hkn
    exact ⟨hk.get?_dir hdir, hname⟩

/-- The way may be longer. -/
theorem IsOnWay.concat {files : FileSystem} (hw : IsOnWay files dir names k) :
    k ≠ dir ++ (names ++ [n]) ∧ IsOnWay files dir (names ++ [n]) k := by
  obtain ⟨rel, hrel, hne, rfl⟩ := hw.below
  refine ⟨fun heq => ?_, ⟨rel, hrel.trans (List.prefix_append names [n]), hne, rfl⟩, hw.named⟩
  have hlen := hrel.length_le
  rw [List.append_cancel_left heq, List.length_append, List.length_singleton] at hlen
  omega

/-- What the path of an entry names is on the way. -/
theorem isOnWay_of_names {files : FileSystem} {cwd : Position} (hname : files.Names cwd q (dir ++ names))
    (hne : names ≠ []) : IsOnWay files dir names (dir ++ names) where
  below := ⟨names, List.prefix_refl names, hne, rfl⟩
  named above n hk := by
    rw [hk] at hname
    exact hname.of_concat

/-- **Only directories on the way are new** when directories have been made. -/
theorem Reaches.of_makeDirs_ne (hr : h.Reaches p dir)
    (hq : ∀ a ∈ q.ancestors, a.pieces <+: p.pieces ++ names.map .name)
    (hclear : h.files.IsClear dir names)
    (hk : (Action.run (Action.makeDirs q) h).2.files.get? k ≠ h.files.get? k) :
    (Action.run (Action.makeDirs q) h).2.files.get? k = some .dir ∧
      IsOnWay (Action.run (Action.makeDirs q) h).2.files dir names k := by
  rw [Action.run_makeDirs] at hk ⊢
  have hadds := addsDirs_makeDirs h.files h.cwd q
  have hplace : ∀ mid, (h.files.makeDirs h.cwd q).2.Leads h.cwd p.pieces mid → mid = .ofPlace dir :=
    fun mid hmid => hmid.unique (hr.leads.mono hadds.extends_old)
  have hnone : h.files.get? k = none := by
    cases hold : h.files.get? k with
    | none => rfl
    | some e =>
      rw [hold] at hk
      exact absurd (hadds.extends_old k e hold) hk
  rw [hnone, Option.ne_none_iff_exists'] at hk
  obtain ⟨e, he⟩ := hk
  have he : (h.files.makeDirs h.cwd q).2.get? k = some e := he
  obtain ⟨rfl, hat⟩ := hadds.added_below hq hclear hplace he hnone
  obtain ⟨-, a, -, hname⟩ := hadds.added he hnone
  rcases hat with ⟨ds, hds, hl⟩ | ⟨rel, hrel, rfl⟩
  · -- The directory itself is reached through there.
    obtain ⟨mid, e, hmid, hs⟩ := exists_standing_of_leads hr.cwd_dir hr.leads
      (show h.files.standing (.ofPlace dir) = some .dir from hr.dir) hds
    obtain rfl := (hmid.mono hadds.extends_old).unique hl
    have hs : h.files.get? k = some e := hs
    rw [hnone] at hs
    cases hs
  · have hne : rel ≠ [] := by
      rintro rfl
      rw [List.append_nil, hr.dir] at hnone
      cases hnone
    refine ⟨he, ⟨rel, hrel, hne, rfl⟩, fun above n hk => ?_⟩
    rw [hk] at hname
    exact hname.of_concat

section

variable (hr : h.Reaches p dir) (hq : q.pieces = p.pieces ++ (names ++ [n]).map .name)
  (hslash : q.endsInSlash = false) (hclear : h.files.IsClear dir names)

include hr hq hclear

/-- The directories above the entry are on the way. -/
theorem Reaches.of_makeParents_ne
    (hk : (Action.run (Action.makeParents q) h).2.files.get? k ≠ h.files.get? k) :
    (Action.run (Action.makeParents q) h).2.files.get? k = some .dir ∧
      IsOnWay (Action.run (Action.makeParents q) h).2.files dir names k := by
  rw [List.map_append, ← List.append_assoc] at hq
  obtain ⟨r, j, hparent, hcs⟩ := Path.exists_parent?_of_concat hq
  unfold Action.makeParents at hk ⊢
  rw [hparent] at hk ⊢
  refine hr.of_makeDirs_ne (fun a ha => ?_) hclear hk
  rw [hcs]
  exact (Path.prefix_of_mem_ancestors ha).trans (List.prefix_append _ _)

theorem Reaches.isClear_of_makeParents :
    (Action.run (Action.makeParents q) h).2.files.IsClear dir names := by
  intro rel hrel target hlink
  by_cases hk : (Action.run (Action.makeParents q) h).2.files.get? (dir ++ rel) =
      h.files.get? (dir ++ rel)
  · rw [hk] at hlink
    exact hclear rel hrel target hlink
  · rw [(hr.of_makeParents_ne hq hclear hk).1] at hlink
    cases hlink

end

/-- How a file or a link is put at a path, once the directories above it are there. -/
inductive Puts (q : Path) : Entry → (FileSystem → Position → Except FileError FileSystem) → Prop where
  | file (bytes : List UInt8) : Puts q (.file bytes) fun fs cwd => fs.write cwd q bytes
  | link (target : Path) : Puts q (.link target) fun fs cwd => fs.makeLink cwd q target

/-- The entry may be planted: the way to it is clear of links, as is its place unless it is a link
itself. -/
structure IsPlantable (h : Host) (p : Path) (dir : Location) (names : List OsString) (n : OsString)
    (q : Path) (e : Entry) : Prop where
  reaches : h.Reaches p dir
  pieces : q.pieces = p.pieces ++ (names ++ [n]).map .name
  no_slash : q.endsInSlash = false
  clear : h.files.IsClear dir names
  last : (∀ target, e ≠ .link target) → ∀ target,
    h.files.get? (dir ++ (names ++ [n])) ≠ some (.link target)

namespace IsPlantable

/-- Where no link is planted the whole way is clear. -/
theorem isClear (hp : h.IsPlantable p dir names n q e) (hlink : ∀ target, e ≠ .link target) :
    h.files.IsClear dir (names ++ [n]) := by
  intro rel hrel target
  rcases List.prefix_concat_iff.1 hrel with rfl | hpre
  · exact hp.last hlink target
  · exact hp.clear rel hpre target

/-- The directories above have been made. -/
theorem parents (hp : h.IsPlantable p dir names n q e)
    (hg : (Action.run (Action.makeParents q) h).2 = g) : g.IsPlantable p dir names n q e := by
  subst hg
  have hk := Keeps.makeParents h q
  refine ⟨hp.reaches.keeps hk, hp.pieces, hp.no_slash,
    hp.reaches.isClear_of_makeParents hp.pieces hp.clear, fun hlink target htarget => ?_⟩
  have hsame : (Action.run (Action.makeParents q) h).2.files.get? (dir ++ (names ++ [n])) =
      h.files.get? (dir ++ (names ++ [n])) := by
    by_contra hne
    exact (hp.reaches.of_makeParents_ne hp.pieces hp.clear hne).2.concat.1 rfl
  rw [hsame] at htarget
  exact hp.last hlink target htarget

/-- The entry is put where the names lead. -/
theorem change_eq_ok (hp : h.IsPlantable p dir names n q e)
    {f : FileSystem → Position → Except FileError FileSystem} {files : FileSystem} (hf : Puts q e f)
    (hok : f h.files h.cwd = .ok files) :
    files = h.files.put (dir ++ (names ++ [n])) e ∧ files.Retains h.files ∧
      h.files.Names h.cwd q (dir ++ (names ++ [n])) := by
  have hplace := fun mid (hmid : h.files.Leads h.cwd p.pieces mid) => hmid.unique hp.reaches.leads
  cases hf with
  | file bytes =>
    have hretains := retains_of_write hok
    obtain ⟨k, hk, rfl⟩ := write_spec hok
    obtain ⟨rfl, hname⟩ := names_of_writePlace_below hk hp.pieces (by simp) hp.no_slash
      (hp.isClear (by simp)) hplace
    exact ⟨rfl, hretains, hname⟩
  | link target =>
    obtain ⟨k, hname, hnone, rfl⟩ := makeLink_spec hok
    obtain rfl := hname.eq_below hp.pieces hp.clear hplace
    exact ⟨rfl, (extends_put hnone).retains, hname⟩

/-- What has been put is new, and nothing else. -/
theorem of_change_ne (hp : h.IsPlantable p dir names n q e)
    {f : FileSystem → Position → Except FileError FileSystem} (hf : Puts q e f)
    (hk : (Action.run (Action.change f) h).2.files.get? k ≠ h.files.get? k) :
    k = dir ++ (names ++ [n]) ∧ (Action.run (Action.change f) h).2.files.get? k = some e ∧
      IsOnWay (Action.run (Action.change f) h).2.files dir (names ++ [n]) k := by
  rw [Action.run_change] at hk ⊢
  split at hk
  · rename_i files hok
    obtain ⟨rfl, hretains, hname⟩ := hp.change_eq_ok hf hok
    have hput : ∀ k, (h.files.put (dir ++ (names ++ [n])) e).get? k =
        if k = dir ++ (names ++ [n]) then some e else h.files.get? k :=
      get?_put_of_ne_nil hname.ne_nil
    rw [Host.files_withFiles, hput] at hk
    split at hk
    · rename_i heq
      subst heq
      refine ⟨rfl, ?_, (isOnWay_of_names hname (by simp)).retained hretains⟩
      rw [Host.files_withFiles, hput, if_pos rfl]
    · exact absurd rfl hk
  · exact absurd rfl hk

/-- **Besides the entry only directories on the way to it are new**, however far the planting comes. -/
theorem of_plant_ne (hp : h.IsPlantable p dir names n q e)
    (hk : (Action.run (Action.plant q e) h).2.files.get? k ≠ h.files.get? k) :
    (Action.run (Action.plant q e) h).2.files.get? k =
        some (if k = dir ++ (names ++ [n]) then e else .dir) ∧
      IsOnWay (Action.run (Action.plant q e) h).2.files dir (names ++ [n]) k := by
  -- A file and a link are put after the directories above them.
  have hafter : ∀ {f : FileSystem → Position → Except FileError FileSystem}, Puts q e f →
      (Action.run (Action.makeParents q >>= fun _ => Action.change f) h).2.files.get? k ≠
        h.files.get? k →
      (Action.run (Action.makeParents q >>= fun _ => Action.change f) h).2.files.get? k =
          some (if k = dir ++ (names ++ [n]) then e else .dir) ∧
        IsOnWay (Action.run (Action.makeParents q >>= fun _ => Action.change f) h).2.files dir
          (names ++ [n]) k := by
    intro f hf hk
    rw [Action.run_bind] at hk ⊢
    have hmade := hp.reaches.of_makeParents_ne (k := k) hp.pieces hp.clear
    rcases hrun : Action.run (Action.makeParents q) h with ⟨cause | u, g⟩
    · rw [hrun] at hk hmade
      obtain ⟨hdir, hw⟩ := hmade hk
      rw [if_neg hw.concat.1]
      exact ⟨hdir, hw.concat.2⟩
    · have hp' := hp.parents (congrArg Prod.snd hrun)
      rw [hrun] at hk hmade
      have hput := hp'.of_change_ne (k := k) hf
      by_cases hlast : (Action.run (Action.change f) g).2.files.get? k = g.files.get? k
      · have hk : (Action.run (Action.change f) g).2.files.get? k ≠ h.files.get? k := hk
        rw [hlast] at hk
        obtain ⟨hdir, hw⟩ := hmade hk
        rw [if_neg hw.concat.1]
        refine ⟨hlast.trans hdir, hw.concat.2.retained ?_⟩
        refine (Keeps.change hp'.reaches.cwd_dir fun files hok => ?_).files
        exact (hp'.change_eq_ok hf hok).2.1
      · obtain ⟨rfl, he, hw⟩ := hput hlast
        rw [if_pos rfl]
        exact ⟨he, hw⟩
  cases e with
  | dir =>
    have habove : ∀ a ∈ q.ancestors, a.pieces <+: p.pieces ++ (names ++ [n]).map .name := by
      intro a ha
      rw [← hp.pieces]
      exact Path.prefix_of_mem_ancestors ha
    rw [ite_self]
    exact hp.reaches.of_makeDirs_ne habove (hp.isClear (by simp)) hk
  | file bytes => exact hafter (.file bytes) hk
  | link target => exact hafter (.link target) hk

/-- **An entry that has been planted stands where the names lead.** -/
theorem get?_of_plant (hp : h.IsPlantable p dir names n q e)
    (hok : Action.run (Action.plant q e) h = (.ok (), g)) :
    g.files.get? (dir ++ (names ++ [n])) = some e := by
  have hafter : ∀ {f : FileSystem → Position → Except FileError FileSystem}, Puts q e f →
      Action.run (Action.makeParents q >>= fun _ => Action.change f) h = (.ok (), g) →
      g.files.get? (dir ++ (names ++ [n])) = some e := by
    intro f hf hok
    obtain ⟨u, g', hparents, hok⟩ := Action.run_bind_eq_ok hok
    have hp' := hp.parents (congrArg Prod.snd hparents)
    rw [Action.run_change] at hok
    split at hok
    · rename_i files hfiles
      obtain ⟨rfl, -, hname⟩ := hp'.change_eq_ok hf hfiles
      obtain ⟨-, rfl⟩ := Prod.mk.inj hok
      rw [Host.files_withFiles, get?_put_of_ne_nil hname.ne_nil, if_pos rfl]
    · cases (Prod.mk.inj hok).1
  cases e with
  | dir =>
    have hkeeps := Keeps.makeDirs h q
    have hmake : Action.run (Action.makeDirs q) h = (.ok (), g) := hok
    rw [hmake] at hkeeps
    rw [Action.run_makeDirs] at hmake
    obtain ⟨hres, rfl⟩ := Prod.mk.inj hmake
    have hok : (h.files.makeDirs h.cwd q).1 = .ok () := by
      cases hmk : (h.files.makeDirs h.cwd q).1 with
      | ok u => rfl
      | error e =>
        rw [hmk] at hres
        cases hres
    obtain ⟨pos, hl, hs⟩ := exists_leads_of_makeDirs hp.reaches.cwd_dir hok
    rw [hp.pieces] at hl
    have hclear := (hp.isClear (by simp)).addsDirs (addsDirs_makeDirs h.files h.cwd q)
    obtain rfl := hl.eq_of_names hclear fun mid hmid => hmid.unique (hp.reaches.keeps hkeeps).leads
    exact hs
  | file bytes => exact hafter (.file bytes) hok
  | link target => exact hafter (.link target) hok

end IsPlantable

end SolVendor.Host
