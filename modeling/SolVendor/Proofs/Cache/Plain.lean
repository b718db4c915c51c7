import SolVendor.Proofs.Cache.Delivery
import SolVendor.Proofs.Host.Planting
/-!
# Cache — plain deliveries

A plain delivery makes directories and files below its destination, under
names that files can have, and ends at what it cannot write. It follows no
link, so nothing changes but the destination and what is below it, even if
the destination cannot be made: a fetcher with plain deliveries is confined
(`Fetcher.isConfined_of_isPlain`).
-/

namespace SolVendor

open FileSystem

variable {h g : Host} {p : Path} {loc k : Location} {rel : Location} {e : Entry}

/-! ## Making the destination -/

/-- **Only the place of the path is new** when directories have been made for it. -/
theorem Host.IsReady.names_of_makeDirs (hr : h.IsReady p)
    (he : (h.files.makeDirs h.cwd p).2.get? k = some e) (hnone : h.files.get? k = none) :
    h.files.Names h.cwd p k := by
  obtain ⟨cs, n, dir, hp, hl, hd⟩ := hr.above
  have hadds := addsDirs_makeDirs h.files h.cwd p
  obtain ⟨rfl, q, hq, hname⟩ := hadds.added he hnone
  rcases Path.eq_or_prefix_of_mem_ancestors hq with rfl | ⟨r, hparent, hpre⟩
  · obtain ⟨hc, ds, dir', m, hds, rfl, hl', -, hm⟩ := names_iff.1 hname
    rw [hp] at hds
    obtain ⟨rfl, hnm⟩ := List.append_inj' hds rfl
    cases hnm
    obtain rfl : dir = dir' := congrArg Position.place ((hl.mono hadds.extends_old).unique hl')
    exact names_iff.2 ⟨hc, cs, dir, n, hp, rfl, hl, hd, hm⟩
  · -- The parent led to the directory before.
    obtain ⟨r', j, hparent', hcs⟩ := Path.exists_parent?_of_concat hp
    rw [hparent] at hparent'
    obtain rfl := Option.some.inj hparent'
    rw [hcs] at hl
    obtain ⟨mid, l, hmid, hw⟩ := hl.exists_of_append
    obtain rfl := hw.eq_of_dots
    obtain ⟨e, hsome⟩ := hadds.exists_get?_of_leads hr.cwd_dir hmid
      (show h.files.standing (.ofPlace dir) = some .dir from hd) hname he hpre
    rw [hnone] at hsome
    cases hsome

/-- If the directory can be made at all, the path names a place. -/
theorem Host.IsReady.exists_names (hr : h.IsReady p)
    (hok : (h.files.makeDirs h.cwd p).1 = .ok ()) : ∃ loc, h.files.Names h.cwd p loc := by
  obtain ⟨cs, n, dir, hp, hl, hd⟩ := hr.above
  have hadds := addsDirs_makeDirs h.files h.cwd p
  have htext : p ≠ .empty := by
    intro htext
    rw [Path.pieces_empty htext] at hp
    simp at hp
  obtain ⟨pos, hpos, -⟩ := isDir_iff.1 ((isDir_of_makeDirs hok).resolve_left htext)
  obtain ⟨hc, hsteps⟩ := locate_eq_ok_iff.1 hpos
  have hl' := leads_pieces_of_steps hsteps
  rw [hp] at hl'
  obtain ⟨mid, l, hmid, hw⟩ := hl'.exists_of_append
  obtain rfl := hmid.unique (hl.mono hadds.extends_old)
  have hn : isTooLong n = false := by
    cases hw with
    | name _ _ hn _ _ _ => exact hn
    | link _ _ hn _ _ => exact hn
  exact ⟨dir ++ [n], names_iff.2 ⟨hc, cs, dir, n, hp, rfl, hl, hd, hn⟩⟩

/-! ## Writing below the destination -/

namespace Delivery

/-- The delivery makes directories and files below its destination, under names that files can have,
and ends at what it cannot write. -/
structure IsPlain (delivery : Delivery) : Prop where
  strict : delivery.strict = true
  entries : ∀ {entries}, delivery.entries = some entries → ∀ w ∈ entries,
    w.1 ≠ [] ∧ (∀ n ∈ w.1, IsFileName n) ∧ ∀ target, w.2 ≠ .link target

/-- The path leads to a directory without links below, and nothing else differs from the first host. -/
structure IsFilled (h : Host) (p : Path) (loc : Location) (g : Host) : Prop where
  cwd_dir : g.files.get? g.cwd.place = some .dir
  leads : g.files.Leads g.cwd p.pieces (.ofPlace loc)
  dir : g.files.get? loc = some .dir
  links : g.files.HasNoLinks loc
  outside : ∀ {k}, ¬ loc <+: k → g.files.get? k = h.files.get? k

theorem IsFilled.reaches (hf : IsFilled h p loc g) : g.Reaches p loc :=
  ⟨hf.cwd_dir, hf.leads, hf.dir⟩

/-- **Entries are planted below.** -/
theorem IsFilled.plant (hf : IsFilled h p loc g) (hne : rel ≠ []) (hnames : ∀ n ∈ rel, IsFileName n)
    (hlink : ∀ target, e ≠ .link target) :
    IsFilled h p loc (Action.run (Action.plant (p.join (.ofNames rel)) e) g).2 := by
  have hpieces := Path.pieces_join_ofNames (p := p) hnames
  have hslash := Path.endsInSlash_join_ofNames (p := p) hnames hne
  obtain ⟨above, n, hrel⟩ := (List.eq_nil_or_concat rel).resolve_left hne
  rw [List.concat_eq_append] at hrel
  have hplant : g.IsPlantable p loc above n (p.join (.ofNames rel)) e :=
    ⟨hf.reaches, hrel ▸ hpieces, hslash, hf.links.isClear above, fun _ => hf.links _⟩
  have hkeeps := Host.Keeps.plant hf.cwd_dir (p.join (.ofNames rel)) e
  have hreaches := hf.reaches.keeps hkeeps
  exact
    { cwd_dir := hreaches.cwd_dir
      leads := hreaches.leads
      dir := hreaches.dir
      links := by
        intro rel' target htarget
        by_cases hsame : (Action.run (Action.plant (p.join (.ofNames rel)) e) g).2.files.get?
            (loc ++ rel') = g.files.get? (loc ++ rel')
        · rw [hsame] at htarget
          exact hf.links rel' target htarget
        · rw [(hplant.of_plant_ne hsame).1] at htarget
          split at htarget
          · exact hlink target (Option.some.inj htarget)
          · cases htarget
      outside := by
        intro k hk
        rw [← hf.outside hk]
        by_contra hne
        obtain ⟨rel', -, -, rfl⟩ := (hplant.of_plant_ne hne).2.below
        exact hk (List.prefix_append loc rel') }

theorem IsFilled.writeAll {entries : List (Location × Entry)} (hf : IsFilled h p loc g)
    (hplain : ∀ w ∈ entries, w.1 ≠ [] ∧ (∀ n ∈ w.1, IsFileName n) ∧ ∀ target, w.2 ≠ .link target) :
    IsFilled h p loc
      (Action.run (Delivery.write true (entries.map fun (rel, e) => (p.join (.ofNames rel), e))) g).2 := by
  induction entries generalizing g with
  | nil => exact hf
  | cons w entries ih =>
    obtain ⟨rel, e⟩ := w
    obtain ⟨hne, hnames, hlink⟩ := hplain (rel, e) List.mem_cons_self
    have hfirst := hf.plant hne hnames hlink
    rw [List.map_cons, Delivery.write, if_pos rfl, Action.run_bind]
    rcases hrun : Action.run (Action.plant (p.join (.ofNames rel)) e) g with ⟨_ | u, g₁⟩
    · rw [hrun] at hfirst
      exact hfirst
    · rw [hrun] at hfirst
      exact ih hfirst fun w hw => hplain w (List.mem_cons_of_mem _ hw)

end Delivery

/-- The destination is made. -/
theorem Host.IsReady.isFilled (hr : h.IsReady p) (hname : h.files.Names h.cwd p loc) :
    Delivery.IsFilled h p loc { h with files := h.files.put loc .dir } := by
  have hnone := hr.vacant hname
  have hloc : h.files.get? loc = none := by simpa using hnone []
  have hext := extends_put (e := .dir) hloc
  have hput : ∀ k, (h.files.put loc .dir).get? k = if k = loc then some .dir else h.files.get? k :=
    get?_put_of_ne_nil hname.ne_nil
  have hdir : (h.files.put loc .dir).get? loc = some .dir := by rw [hput, if_pos rfl]
  exact
    { cwd_dir := hext _ _ hr.cwd_dir
      leads := (hname.mono hext).leads hdir (by simp)
      dir := hdir
      links := by
        intro rel target hlink
        have hlink : (h.files.put loc .dir).get? (loc ++ rel) = _ := hlink
        rw [hput] at hlink
        split at hlink
        · cases hlink
        · rw [hnone rel] at hlink
          cases hlink
      outside := by
        intro k hk
        have hne : k ≠ loc := by
          rintro rfl
          exact hk (List.prefix_refl k)
        show (h.files.put loc .dir).get? k = _
        rw [hput, if_neg hne] }

/-- **A fetcher with plain deliveries is confined.** -/
theorem Fetcher.isConfined_of_isPlain {fetcher : Fetcher}
    (hplain : ∀ calls d p, (fetcher calls d p).IsPlain) : fetcher.IsConfined := by
  intro calls d p h hr k hk
  obtain ⟨hstrict, hentries⟩ := hplain calls d p
  obtain ⟨ending, hrun⟩ := Delivery.run_run (fetcher calls d p) p h
  rw [hrun, hstrict] at hk
  simp only at hk
  unfold Delivery.writes at hk
  split at hk
  · rename_i entries heq
    rw [Delivery.write, if_pos rfl, Action.run_bind] at hk
    have hplant : Action.run (Action.plant p .dir) h = Action.run (Action.makeDirs p) h := rfl
    rw [hplant, Action.run_makeDirs] at hk
    cases hres : (h.files.makeDirs h.cwd p).1 with
    | ok u =>
      -- The destination is there, and the rest is written below it.
      obtain ⟨loc, hname⟩ := hr.exists_names hres
      have hnone : h.files.get? loc = none := by simpa using hr.vacant hname []
      rw [makeDirs_of_names hname hnone] at hk
      refine ⟨loc, hname, ?_⟩
      by_contra hout
      exact hk (((hr.isFilled hname).writeAll (hentries heq)).outside hout)
    | error e =>
      -- The destination cannot be made, and nothing is written after it.
      rw [hres] at hk
      have hk : (h.files.makeDirs h.cwd p).2.get? k ≠ h.files.get? k := hk
      have hext := (addsDirs_makeDirs h.files h.cwd p).extends_old
      cases hold : h.files.get? k with
      | some e' => exact absurd (by rw [hext k e' hold, hold]) hk
      | none =>
        rw [hold, Option.ne_none_iff_exists'] at hk
        obtain ⟨e', he⟩ := hk
        exact ⟨k, hr.names_of_makeDirs he hold, List.prefix_refl k⟩
  · exact absurd rfl hk

/-- A plain delivery is plain wherever it is stopped. -/
theorem Delivery.IsPlain.upTo {delivery : Delivery} (hplain : delivery.IsPlain) (n : Nat) :
    (delivery.upTo n).IsPlain := by
  cases n with
  | zero => exact ⟨hplain.strict, fun heq => by cases heq⟩
  | succ n =>
    refine ⟨hplain.strict, fun {entries} heq w hw => ?_⟩
    obtain ⟨all, hall, rfl⟩ := Option.map_eq_some_iff.1 heq
    exact hplain.entries hall w (List.mem_of_mem_take hw)

theorem Fetcher.isConfinedThroughout_of_isPlain {fetcher : Fetcher}
    (hplain : ∀ calls d p, (fetcher calls d p).IsPlain) : fetcher.IsConfinedThroughout :=
  fun n => isConfined_of_isPlain fun calls d p => (hplain calls d p).upTo n

end SolVendor
