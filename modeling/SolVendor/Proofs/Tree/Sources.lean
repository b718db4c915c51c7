import SolVendor.Proofs.FileSystem.Below
import SolVendor.Proofs.Tree.Discovery
/-!
# Tree — discovery and the sources that there are

Which files of a tree are its sources is said here by their places: names
lead down to them through real directories (`IsReached`), and there a file
stands, or a link that leads to one (`IsRegular`). Discovery looks them up by
their paths. That comes to the same in a tree that is readable, where no path
is over the limits that the file system sets (`isFile_iff_isRegular`,
`canList_of_isReadable`).

The order of the listings is that of the file system, which compares names
by their bytes (`map_bytes_lt`). Hence discovery finds just the sources, one
directory at the top after the other, and below each of them in the order of
the names on their ways (`discovers_the_sources`). A source is called what the
last name on its way is shown as. That is the name itself only if it is a
text.
-/

namespace SolVendor.Tree

open FileSystem SolVendor.Path

variable {fs : FileSystem} {cwd : Position} {tree : Path} {dir : String} {n name : OsString}
  {place rel above : Location} {e : Entry}

/-! ## What the sources are -/

/-- A directory at the top of a tree: it is there, or a link that leads to it. -/
structure IsTop (fs : FileSystem) (cwd : Position) (tree : Path) (dir : String) (place : Location) : Prop where
  leads : fs.locate cwd (tree.join ⟨dir⟩) = .ok (.ofPlace place)
  isDir : fs.get? place = some .dir

/-- Names lead down to an entry, through directories only. -/
structure IsReached (fs : FileSystem) (place rel : Location) (e : Entry) : Prop where
  entry : fs.get? (place ++ rel) = some e
  dirs : ∀ above, above <+: rel → above ≠ rel → fs.get? (place ++ above) = some .dir

/-- What stands in a directory is a file, or a link that leads to one. -/
inductive IsRegular (fs : FileSystem) (dir : Location) : Entry → Prop
  | file {bytes : List UInt8} : IsRegular fs dir (.file bytes)
  | link {target : Path} {k : Nat} {pos : Position} {bytes : List UInt8} :
      Walks fs k (.ofPlace dir) target.steps pos → fs.standing pos = some (.file bytes) →
      IsRegular fs dir (.link target)

/-- Nothing on the way down through names is over the limits of the file system: neither a name nor the whole
path, nor the number of links, if it leads anywhere. -/
structure IsWithinLimits (fs : FileSystem) (cwd : Position) (tree : Path) (names : List OsString) : Prop where
  short : ∀ n ∈ names, isTooLong n = false
  path : checkPath (tree.join (.ofNames names)) = .ok ()
  links : ∀ {k pos}, Walks fs k cwd (tree.join (.ofNames names)).steps pos → k ≤ maxLinks

/-- All that is below the directories at the top of a tree can be looked up by its path. -/
def IsReadable (fs : FileSystem) (cwd : Position) (tree : Path) : Prop :=
  ∀ dir ∈ sourceDirs, ∀ {place rel e}, IsTop fs cwd tree dir place → rel ≠ [] → IsReached fs place rel e →
    IsWithinLimits fs cwd tree (dir :: rel)

/-- The file is a source below one of the directories at the top. -/
def IsSourceBelow (fs : FileSystem) (cwd : Position) (tree : Path) (dir : String) (file : DiscoveredFile) :
    Prop :=
  ∃ place above, ∃ stem : OsString, ∃ e, IsTop fs cwd tree dir place ∧
    IsReached fs place (above ++ [stem ++ ".sol"]) e ∧ stem ≠ "" ∧ IsRegular fs (place ++ above) e ∧
    file = ⟨(stem ++ ".sol").display, .ofNames (dir :: (above ++ [stem ++ ".sol"]))⟩

/-- The components of a path, as their bytes. -/
def componentBytes (p : Path) : List (List UInt8) :=
  p.components.map Component.bytes

/-! ## Names of sources -/

/-- **The name of a source is no less than a byte and the extension.** -/
theorem isSourceName_iff : isSourceName name = true ↔ ∃ stem : OsString, stem ≠ "" ∧ name = stem ++ ".sol" := by
  have hending : dot :: (sourceExtension : OsString).bytes = (".sol" : OsString).bytes := by decide
  have hempty : (("" : String) : OsString) = ⟨[]⟩ := by decide
  unfold isSourceName
  rw [hending, hempty, Bool.and_eq_true, List.isSuffixOf_iff_suffix, decide_eq_true_eq]
  constructor
  · rintro ⟨⟨bs, hbs⟩, hlen⟩
    refine ⟨⟨bs⟩, ?_, OsString.ext hbs.symm⟩
    rintro heq
    obtain rfl : bs = [] := congrArg OsString.bytes heq
    rw [← hbs] at hlen
    exact absurd hlen (Nat.lt_irrefl _)
  · rintro ⟨stem, hne, rfl⟩
    rw [OsString.bytes_append]
    refine ⟨List.suffix_append _ _, ?_⟩
    have hpos : 0 < stem.bytes.length := List.length_pos_iff.2 fun hnil => hne (OsString.ext hnil)
    rw [List.length_append]
    omega

/-! ## Looking up what is reached -/

theorem isReached_iff (hfs : fs.WellFormed) : IsReached fs place rel e ↔ fs.get? (place ++ rel) = some e := by
  refine ⟨IsReached.entry, fun he => ⟨he, ?_⟩⟩
  rintro above ⟨rest, rfl⟩ hne
  rw [← List.append_assoc] at he
  exact hfs.get?_above (fun hrest => hne (by rw [hrest, List.append_nil])) he

/-- A name leads to a place, not to a directory that has been removed. -/
theorem exists_eq_ofPlace {k : Nat} {pos mid : Position}
    (h : Walks fs k mid [.name n] pos) : ∃ place, pos = .ofPlace place := by
  have hlost : pos.lost = 0 := by
    cases h with
    | name _ _ _ _ _ hw => exact hw.lost_eq_zero rfl
    | link _ hlost _ _ hw => exact hw.lost_eq_zero hlost
  obtain ⟨place, lost⟩ := pos
  obtain rfl : lost = 0 := hlost
  exact ⟨place, rfl⟩

theorem steps_join_top (hdir : IsFileName (dir : OsString)) :
    (tree.join ⟨dir⟩).steps = tree.pieces ++ [.name dir] := by
  rw [← ofNames_singleton, steps_join_ofNames (by simpa using hdir) (List.cons_ne_nil _ [])]
  rfl

/-- What stands below a directory at the top stands below its place. -/
theorem standsBelow_iff (hdir : IsFileName (dir : OsString)) :
    StandsBelow fs cwd tree dir rel e ↔ ∃ place, IsTop fs cwd tree dir place ∧ fs.get? (place ++ rel) = some e := by
  constructor
  · rintro ⟨start, hl, hs, he⟩
    obtain ⟨-, hleads⟩ := locate_eq_ok_iff.1 hl
    rw [steps_join_top hdir] at hleads
    obtain ⟨mid, k, -, hw⟩ := hleads.exists_of_append
    obtain ⟨place, rfl⟩ := exists_eq_ofPlace hw
    exact ⟨place, ⟨hl, hs⟩, he⟩
  · rintro ⟨place, htop, he⟩
    exact ⟨.ofPlace place, htop.leads, htop.isDir, he⟩

section

variable (hnames : ∀ n ∈ (dir : OsString) :: rel, IsFileName n)

include hnames

/-- The way to what is below a directory at the top goes there first. -/
theorem steps_join_below :
    (tree.join (.ofNames (dir :: rel))).steps = tree.pieces ++ [.name dir] ++ rel.map .name := by
  rw [steps_join_ofNames hnames (List.cons_ne_nil _ rel), List.map_cons, List.append_assoc]
  rfl

/-- **A path leads to what is reached**, unless that is a link. -/
theorem IsTop.leads_below (htop : IsTop fs cwd tree dir place) (hreached : IsReached fs place rel e)
    (hshort : ∀ n ∈ rel, isTooLong n = false) (hlink : ∀ target, e ≠ .link target) :
    fs.Leads cwd (tree.pieces ++ [.name dir] ++ rel.map .name) (.ofPlace (place ++ rel)) := by
  have hlead := (locate_eq_ok_iff.1 htop.leads).2
  rw [steps_join_top (hnames _ List.mem_cons_self)] at hlead
  refine hlead.append (walks_names (fun {above n} hpre => ⟨?_, ?_⟩) hreached.entry hlink)
  · refine hreached.dirs above ((List.prefix_append above [n]).trans hpre) fun heq => ?_
    have hlen := hpre.length_le
    rw [heq, List.length_append, List.length_singleton] at hlen
    omega
  · exact hshort n (hpre.subset (by simp))

end

/-- The directory that something is in is reached as well. -/
theorem IsReached.parent (h : IsReached fs place (above ++ [n]) e) : IsReached fs place above .dir where
  entry := h.dirs above (List.prefix_append above [n]) (by simp)
  dirs ds hds _ := by
    refine h.dirs ds (hds.trans (List.prefix_append above [n])) fun heq => ?_
    have hlen := hds.length_le
    rw [heq, List.length_append, List.length_singleton] at hlen
    omega

/-- **What is reached is looked up as a file just if it is regular.** -/
theorem isFile_iff_isRegular (htop : IsTop fs cwd tree dir place) (hreached : IsReached fs place (above ++ [n]) e)
    (hnames : ∀ m ∈ (dir : OsString) :: (above ++ [n]), IsFileName m)
    (hlim : IsWithinLimits fs cwd tree (dir :: (above ++ [n]))) :
    fs.isFile cwd (tree.join (.ofNames (dir :: (above ++ [n])))) = true ↔ IsRegular fs (place ++ above) e := by
  have hn := hlim.short n (by simp)
  have hentry : fs.get? (place ++ above ++ [n]) = some e := by
    rw [List.append_assoc]
    exact hreached.entry
  have hdir := hreached.parent
  have hlead := htop.leads_below (fun m hm => hnames m (by simp at hm ⊢; tauto)) hdir
    (fun m hm => hlim.short m (by simp [hm])) (by simp)
  have hsteps : (tree.join (.ofNames (dir :: (above ++ [n])))).steps =
      (tree.pieces ++ [.name dir] ++ above.map .name) ++ [.name n] := by
    rw [steps_join_below hnames, List.map_append, List.append_assoc, List.append_assoc, List.append_assoc]
    rfl
  rw [isFile_iff]
  simp only [locate_eq_ok_iff]
  rw [hsteps]
  constructor
  · rintro ⟨pos, bytes, ⟨-, hleads⟩, hs⟩
    obtain ⟨mid, k, hmid, hw⟩ := hleads.exists_of_append
    obtain rfl := hmid.unique hlead
    cases hw with
    | name _ _ _ he _ hw =>
      cases hw
      obtain rfl := Option.some.inj (hentry.symm.trans he)
      obtain rfl := Option.some.inj (he.symm.trans hs)
      exact .file
    | link _ _ _ he hw =>
      obtain rfl := Option.some.inj (hentry.symm.trans he)
      rw [List.append_nil] at hw
      exact .link hw hs
  · intro hregular
    cases hregular with
    | @file bytes =>
      exact ⟨.ofPlace (place ++ above ++ [n]), bytes,
        ⟨hlim.path, hlead.append (.name hdir.entry rfl hn hentry (by simp) .nil)⟩, hentry⟩
    | @link target k pos bytes hw hs =>
      obtain ⟨l, -, hl⟩ := hlead
      have hwalk := hl.append (.link hdir.entry rfl hn hentry (by rwa [List.append_nil]))
      exact ⟨pos, bytes, ⟨hlim.path, _, hlim.links (hsteps ▸ hwalk), hwalk⟩, hs⟩

/-- **In a readable tree all directories can be listed.** -/
theorem canList_of_isReadable (hfs : fs.WellFormed) (hread : IsReadable fs cwd tree) (hdir : dir ∈ sourceDirs) :
    CanList fs cwd tree dir := by
  intro rel hne hs
  have hname := isFileName_of_mem_sourceDirs hdir
  obtain ⟨place, htop, he⟩ := (standsBelow_iff hname).1 hs
  have hreached := (isReached_iff hfs).2 he
  have hnames : ∀ n ∈ (dir : OsString) :: rel, IsFileName n := List.forall_mem_cons.2
    ⟨hname, fun n hn => hfs.names he n (List.mem_append_right place hn)⟩
  have hlim := hread dir hdir htop hne hreached
  refine ⟨.ofPlace (place ++ rel), locate_eq_ok_iff.2 ⟨hlim.path, ?_⟩⟩
  rw [steps_join_below hnames]
  exact htop.leads_below hnames hreached (fun n hn => hlim.short n (List.mem_cons_of_mem _ hn)) (by simp)

/-- **In a readable tree the members of a listing are the sources.** -/
theorem IsListing.mem_iff_isSourceBelow {rels : List Location} (h : IsListing fs cwd tree dir rels)
    (hfs : fs.WellFormed) (hread : IsReadable fs cwd tree) (hdir : dir ∈ sourceDirs) {file : DiscoveredFile} :
    file ∈ rels.map (fileAt dir) ↔ IsSourceBelow fs cwd tree dir file := by
  have hname := isFileName_of_mem_sourceDirs hdir
  have hregular : ∀ {place above n e}, IsTop fs cwd tree dir place → IsReached fs place (above ++ [n]) e →
      (fs.isFile cwd (tree.join (.ofNames (dir :: (above ++ [n])))) = true ↔ IsRegular fs (place ++ above) e) := by
    intro place above n e htop hreached
    exact isFile_iff_isRegular htop hreached (List.forall_mem_cons.2
      ⟨hname, fun m hm => hfs.names hreached.entry m (List.mem_append_right place hm)⟩)
      (hread dir hdir htop (by simp) hreached)
  rw [List.mem_map]
  constructor
  · rintro ⟨rel, hrel, rfl⟩
    obtain ⟨⟨e, hs⟩, hsource⟩ := h.mem_iff.1 hrel
    obtain ⟨place, htop, he⟩ := (standsBelow_iff hname).1 hs
    obtain ⟨above, n, rfl⟩ : ∃ above n, rel = above ++ [n] :=
      ⟨_, _, (List.dropLast_concat_getLast hsource.ne_nil).symm⟩
    have hreached := (isReached_iff hfs).2 he
    have hlast : (above ++ [n]).getLast?.getD "" = n := by simp
    obtain ⟨stem, hne, rfl⟩ := isSourceName_iff.1 (hlast ▸ hsource.name)
    refine ⟨place, above, stem, e, htop, hreached, hne, (hregular htop hreached).1 hsource.file, ?_⟩
    unfold fileAt
    rw [hlast]
  · rintro ⟨place, above, stem, e, htop, hreached, hne, hreg, rfl⟩
    have hlast : (above ++ [stem ++ ".sol"]).getLast?.getD "" = stem ++ ".sol" := by simp
    refine ⟨above ++ [stem ++ ".sol"], h.mem_iff.2 ⟨⟨e, (standsBelow_iff hname).2 ⟨place, htop, hreached.entry⟩⟩,
      by simp, ?_, (hregular htop hreached).2 hreg⟩, ?_⟩
    · rw [hlast]
      exact isSourceName_iff.2 ⟨stem, hne, rfl⟩
    · unfold fileAt
      rw [hlast]

/-! ## The order of the sources -/

/-- What is in order element by element is in order as a whole. -/
theorem map_lt_map {α β : Type} [Ord α] [Std.LawfulEqOrd α] [LT β] {f : α → β}
    (hf : ∀ {a b}, compare a b = .lt → f a < f b) {as bs : List α} (h : compare as bs = .lt) :
    as.map f < bs.map f := by
  induction as generalizing bs with
  | nil =>
    cases bs with
    | nil => cases h
    | cons b bs => exact List.nil_lt_cons _ _
  | cons a as ih =>
    cases bs with
    | nil => cases h
    | cons b bs =>
      rw [List.compare_cons_cons, Ordering.then_eq_lt] at h
      rw [List.map_cons, List.map_cons, List.cons_lt_cons_iff]
      rcases h with hlt | ⟨heq, hlt⟩
      · exact .inl (hf hlt)
      · exact .inr ⟨by rw [Std.LawfulEqOrd.compare_eq_iff_eq.1 heq], ih hlt⟩

/-- **Names in order have bytes in order.** -/
theorem map_bytes_lt {a b : Location} (h : compare a b = .lt) : a.map OsString.bytes < b.map OsString.bytes := by
  refine map_lt_map (fun {s t} hst => ?_) h
  have hlt : compare s.bytes t.bytes = .lt := hst
  simpa using map_lt_map (f := id) (fun {x y} hxy => compareOfLessAndEq_eq_lt.1 hxy) hlt

theorem componentBytes_ofNames {names : List OsString} (h : ∀ n ∈ names, IsFileName n) (hne : names ≠ []) :
    componentBytes (.ofNames names) = names.map OsString.bytes := by
  unfold componentBytes
  rw [components_ofNames h hne, List.map_map]
  rfl

/-- **The files of a listing are in the order of the bytes of their paths**, component by component. -/
theorem IsListing.pairwise_componentBytes {rels : List Location} (h : IsListing fs cwd tree dir rels)
    (hfs : fs.WellFormed) (hdir : dir ∈ sourceDirs) :
    (rels.map (fileAt dir)).Pairwise fun a b => componentBytes a.path < componentBytes b.path := by
  rw [List.pairwise_map]
  refine h.ordered.imp_of_mem fun {a b} ha hb hab => ?_
  unfold fileAt
  rw [componentBytes_ofNames (h.isFileName hfs hdir ha) (List.cons_ne_nil _ a),
    componentBytes_ofNames (h.isFileName hfs hdir hb) (List.cons_ne_nil _ b), List.map_cons, List.map_cons,
    List.cons_lt_cons_iff]
  exact .inr ⟨rfl, map_bytes_lt hab⟩

/-! ## Readable trees -/

/-- The ways down to all that is listed below the directory at the top that is called `dir`. -/
def waysBelow (fs : FileSystem) (cwd : Position) (tree : Path) (dir : String) : List Location :=
  match fs.locate cwd (tree.join ⟨dir⟩) with
  | .ok start => (fs.below start.place).map fun x => dir :: x.1
  | .error _ => []

/-- A tree is readable if no way down is over the limits, nor stopped as there are too many links. -/
theorem isReadable_of_waysBelow (h : ∀ dir ∈ sourceDirs, ∀ names ∈ waysBelow fs cwd tree dir,
    (∀ n ∈ names, isTooLong n = false) ∧ checkPath (tree.join (.ofNames names)) = .ok () ∧
      fs.walk .find maxLinks cwd (tree.join (.ofNames names)).steps ≠ .error .tooManyLinks) :
    IsReadable fs cwd tree := by
  intro dir hdir place rel e htop hne hreached
  have hway : (dir : OsString) :: rel ∈ waysBelow fs cwd tree dir := by
    unfold waysBelow
    rw [htop.leads]
    exact List.mem_map_of_mem (f := fun x => (dir : OsString) :: x.1) (mem_below.2 ⟨hne, hreached.entry⟩)
  obtain ⟨hshort, hpath, hlinks⟩ := h dir hdir _ hway
  exact ⟨hshort, hpath, fun hw => Nat.not_lt.1 fun hlt => hlinks (hw.walk_of_lt hlt)⟩

/-! ## Discovery -/

/-- A source is called what its last component is shown as, and its path is relative and in normal form. -/
theorem IsSourceBelow.path {file : DiscoveredFile} (h : IsSourceBelow fs cwd tree dir file) (hfs : fs.WellFormed)
    (hdir : IsFileName (dir : OsString)) :
    ∃ last, file.path.fileName? = some last ∧ file.name = last.display ∧ file.path.normalize = file.path ∧
      file.path.isAbsolute = false := by
  obtain ⟨place, above, stem, e, -, hreached, -, -, rfl⟩ := h
  have hnames : ∀ n ∈ (dir : OsString) :: (above ++ [stem ++ ".sol"]), IsFileName n := List.forall_mem_cons.2
    ⟨hdir, fun n hn => hfs.names hreached.entry n (List.mem_append_right place hn)⟩
  have hpieces : (Path.ofNames (dir :: (above ++ [stem ++ ".sol"]))).pieces =
      ((dir : OsString) :: above).map .name ++ [.name (stem ++ ".sol")] := by
    rw [pieces_ofNames hnames, ← List.cons_append, List.map_append]
    rfl
  exact ⟨stem ++ ".sol", fileName?_of_concat hpieces (endsInSlash_ofNames hnames), rfl,
    normalize_ofNames hnames (List.cons_ne_nil _ _), isAbsolute_ofNames hnames⟩

/-- What is found below a directory at the top are the sources among what stands there. -/
theorem IsTop.eq_filterMap {files : List DiscoveredFile} (htop : IsTop fs cwd tree dir place)
    (h : discoverIn fs cwd tree dir = .ok files) :
    files = (fs.below place).filterMap fun x => sourceAt fs cwd tree dir x.1 := by
  have hdir : fs.standing (.ofPlace place) = some .dir := htop.isDir
  unfold discoverIn at h
  rw [htop.leads] at h
  simp only [hdir, ne_eq, not_true_eq_false, if_false] at h
  split at h
  · cases h
  · exact (Except.ok.inj h).symm

/-- **Discovery finds just the sources of a readable tree.** It gives what is below each of the directories at
the top, one after the other: the files, and the links to files, that real directories lead down to and whose
names are more than the extension. These are picked out of what a walk visits that goes depth first. Each of
them is called what its last component is shown as, which is that component just if it is a text, and has its
path from the tree in normal form. Below one directory the paths are in the order of their components, compared
byte by byte, and no path occurs twice. -/
theorem discovers_the_sources (hfs : fs.WellFormed) (hread : IsReadable fs cwd tree) :
    ∃ found : String → List DiscoveredFile,
      discover fs cwd tree = .ok (["src", "contracts", "libs"].flatMap found) ∧
        (∀ dir ∈ ["src", "contracts", "libs"],
          (∀ file, file ∈ found dir ↔ IsSourceBelow fs cwd tree dir file) ∧
          (∀ place, IsTop fs cwd tree dir place → ∃ names visited, IsContents fs place names ∧
            Visits fs place names visited ∧ found dir = visited.filterMap fun x => sourceAt fs cwd tree dir x.1) ∧
          (∀ file ∈ found dir, ∃ last, file.path.fileName? = some last ∧ file.name = last.display ∧
            ((file.name : OsString) = last ↔ last.IsUnicode) ∧ file.path.normalize = file.path ∧
              file.path.isAbsolute = false) ∧
          (found dir).Pairwise fun a b => componentBytes a.path < componentBytes b.path) ∧
        ((["src", "contracts", "libs"].flatMap found).map DiscoveredFile.path).Nodup := by
  have hlisting : ∀ dir ∈ sourceDirs, ∃ rels, IsListing fs cwd tree dir rels := by
    intro dir hdir
    obtain ⟨files, hfiles⟩ := exists_discoverIn_of_canList (canList_of_isReadable hfs hread hdir)
    obtain ⟨rels, hrels, -⟩ := exists_listing_of_discoverIn hfiles
    exact ⟨rels, hrels⟩
  choose! rels hrels using hlisting
  have hcan : ∀ dir ∈ sourceDirs, CanList fs cwd tree dir := fun dir => canList_of_isReadable hfs hread
  have hsources : ∀ dir ∈ sourceDirs, ∀ file,
      file ∈ (rels dir).map (fileAt dir) ↔ IsSourceBelow fs cwd tree dir file :=
    fun dir hdir file => (hrels dir hdir).mem_iff_isSourceBelow hfs hread hdir
  refine ⟨fun dir => (rels dir).map (fileAt dir), discover_of_listings hrels hcan,
    fun dir hdir => ⟨hsources dir hdir, fun place htop => ?_, fun file hfile => ?_,
      (hrels dir hdir).pairwise_componentBytes hfs hdir⟩, ?_⟩
  · obtain ⟨names, visited, hnames, hvisits⟩ := exists_visits fs place
    refine ⟨names, visited, hnames, hvisits, ?_⟩
    rw [hvisits.eq_below hfs hnames]
    exact htop.eq_filterMap (discoverIn_of_listing (hrels dir hdir) (hcan dir hdir))
  · obtain ⟨last, hlast, hname, hpath⟩ :=
      ((hsources dir hdir file).1 hfile).path hfs (isFileName_of_mem_sourceDirs hdir)
    exact ⟨last, hlast, hname, by rw [hname, OsString.IsUnicode], hpath⟩
  · exact List.pairwise_map.2 (areDistinct_of_listings hfs hrels).apart

/-! ## A tree with directories, files and links -/

/-- A tree at `/t`. Three of its names are in another order as texts than as components; a directory has the name
of a source, with a hidden link in it; one link leads nowhere, and one takes the place of a directory at the
top. -/
def sampleFiles : FileSystem :=
  ((((((FileSystem.empty.plant ["t", "src", "a.sol"] (.file [])).plant ["t", "src", "a", "b.sol"] (.file [])).plant
    ["t", "src", "a-b.sol"] (.file [])).plant ["t", "src", "x.sol", ".y.sol"] (.link ⟨"../a.sol"⟩)).plant
    ["t", "src", ".sol"] (.file [])).plant ["t", "src", "gone.sol"] (.link ⟨"nowhere"⟩)).plant ["t", "libs"]
    (.link ⟨"src/a"⟩)

/-- It is readable, and just these are its sources. -/
theorem discovers_the_sources_sample :
    sampleFiles.WellFormed ∧ IsReadable sampleFiles (.ofPlace []) ⟨"/t"⟩ ∧
      ∀ file, (∃ dir ∈ ["src", "contracts", "libs"], IsSourceBelow sampleFiles (.ofPlace []) ⟨"/t"⟩ dir file) ↔
        file ∈ [⟨"b.sol", ⟨"src/a/b.sol"⟩⟩, ⟨"a-b.sol", ⟨"src/a-b.sol"⟩⟩, ⟨"a.sol", ⟨"src/a.sol"⟩⟩,
          ⟨".y.sol", ⟨"src/x.sol/.y.sol"⟩⟩, (⟨"b.sol", ⟨"libs/b.sol"⟩⟩ : DiscoveredFile)] := by
  have hfs : sampleFiles.WellFormed := wellFormed_of_below (by decide +kernel)
  have hread : IsReadable sampleFiles (.ofPlace []) ⟨"/t"⟩ := isReadable_of_waysBelow (by decide +kernel)
  have hrun : discover sampleFiles (.ofPlace []) ⟨"/t"⟩ =
      .ok [⟨"b.sol", ⟨"src/a/b.sol"⟩⟩, ⟨"a-b.sol", ⟨"src/a-b.sol"⟩⟩, ⟨"a.sol", ⟨"src/a.sol"⟩⟩,
        ⟨".y.sol", ⟨"src/x.sol/.y.sol"⟩⟩, ⟨"b.sol", ⟨"libs/b.sol"⟩⟩] := by decide +kernel
  obtain ⟨found, hfound, hdirs, -⟩ := discovers_the_sources hfs hread
  refine ⟨hfs, hread, fun file => ?_⟩
  rw [← Except.ok.inj (hfound.symm.trans hrun), List.mem_flatMap]
  exact exists_congr fun dir => and_congr_right fun hdir => ((hdirs dir hdir).1 file).symm

/-- The name of a source that is no text. -/
def oddName : OsString := ⟨0xFF :: (".sol" : OsString).bytes⟩

/-- A source that is no text is called what it is shown as, and that is not its last component. -/
theorem discover_oddName :
    discover (FileSystem.empty.plant ["t", "src", oddName] (.file [])) (.ofPlace []) ⟨"/t"⟩ =
        .ok [⟨"\uFFFD.sol", .ofNames ["src", oddName]⟩] ∧
      (Path.ofNames ["src", oddName]).fileName? = some oddName ∧ oddName ≠ "\uFFFD.sol" := by
  decide +kernel

end SolVendor.Tree
