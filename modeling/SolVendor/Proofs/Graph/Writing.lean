import SolVendor.Proofs.Graph.Query
import SolVendor.Proofs.Import.Relative
import SolVendor.Proofs.Import.Written
/-!
# Graph — graphs that are written

Any graph can be written as files: each file imports the files that its
edges lead to, line by line, by relative requests (`Draft.text`). Building
undoes this. From files that have been written so, whatever they are called
and however the statements are styled, a graph is built with these files
for its nodes and the edges that were written, in the same order and with
repetitions (`build_written`). Statements are texts, so the files that are
imported have to be called by texts, and the others need not.
-/

namespace SolVendor

open SolVendor.Path Import

/-- A file that is to be written: its name, the names that lead to it, and the numbers of the files that it
imports, each with the style of the statement. -/
structure Draft where
  name : String
  names : Location
  imports : List (NodeId × Style)

namespace Draft

variable {drafts : List Draft} {f t : Draft} {edge : NodeId × Style} {opener : Opener} {g : ImportGraph}

/-- The path of the file. -/
def path (f : Draft) : Path :=
  .ofNames f.names

/-- The file as it is found. -/
def file (f : Draft) : DiscoveredFile :=
  ⟨f.name, f.path⟩

/-- The lines of the file, as styles and requests. -/
def lines (drafts : List Draft) (f : Draft) : List (Style × List Char) :=
  f.imports.map fun (id, style) =>
    let target := (drafts[id]?.map Draft.names).getD []
    (style, (relative style.dotted f.names target).text.toList)

/-- The text of the file. -/
def text (drafts : List Draft) (f : Draft) : String :=
  String.ofList (written (f.lines drafts))

/-- Files that can be written: they are at different places in the tree, and they import each other only.
What is imported has names that are texts, with no quote and no line feed in them. -/
structure AreWritable (drafts : List Draft) : Prop where
  ne_nil : ∀ f ∈ drafts, f.names ≠ []
  isFileName : ∀ f ∈ drafts, ∀ n ∈ f.names, IsFileName n
  apart : (drafts.map Draft.names).Nodup
  imports_lt : ∀ f ∈ drafts, ∀ edge ∈ f.imports, edge.1 < drafts.length
  isText : ∀ f ∈ drafts, ∀ edge ∈ f.imports, ∀ t ∈ drafts[edge.1]?, ∀ n ∈ t.names,
    n.IsUnicode ∧ Style.IsQuotable n.display.toList

/-- What is imported is one of the files, and its names are texts. -/
theorem AreWritable.exists_target (h : AreWritable drafts) (hf : f ∈ drafts) (hedge : edge ∈ f.imports) :
    ∃ t ∈ drafts, drafts[edge.1]? = some t ∧
      ∀ n ∈ t.names, n.IsUnicode ∧ Style.IsQuotable n.display.toList := by
  have ht := List.getElem?_eq_getElem (h.imports_lt f hf edge hedge)
  exact ⟨_, List.mem_of_getElem? ht, ht, h.isText f hf edge hedge _ ht⟩

/-- Their paths are different and in normal form. -/
theorem AreWritable.areDistinct (h : AreWritable drafts) :
    ImportGraph.AreDistinct (drafts.map Draft.file) := by
  refine ⟨fun file hfile => ?_, ?_⟩
  · obtain ⟨f, hf, rfl⟩ := List.mem_map.1 hfile
    exact normalize_ofNames (h.isFileName f hf) (h.ne_nil f hf)
  · rw [List.pairwise_map]
    refine (List.pairwise_map.1 h.apart).imp_of_mem fun {a b} ha hb hab heq => hab ?_
    exact eq_of_ofNames_eq (h.isFileName a ha) (h.isFileName b hb) heq

/-- Their requests can be written. -/
theorem AreWritable.isQuotable_of_mem_lines (h : AreWritable drafts) (hf : f ∈ drafts) :
    ∀ line ∈ f.lines drafts, Style.IsQuotable line.2 := by
  intro line hline
  obtain ⟨⟨id, style⟩, hedge, rfl⟩ := List.mem_map.1 hline
  obtain ⟨t, hmem, ht, hnames⟩ := h.exists_target hf hedge
  -- No character of the names is a quote or a line feed, and so is none of the others.
  have hchars : ∀ c : Char, c.toNat < 0x80 → UInt8.ofNat c.toNat ≠ slash → UInt8.ofNat c.toNat ≠ dot →
      (∀ n ∈ t.names, c ∉ n.display.toList) → c ∉ (relative style.dotted f.names t.names).text.toList := by
    intro c hlow hslash hdot hout hc
    have hunicode := isUnicode_relative style.dotted f.names fun n hn => (hnames n hn).1
    have hb : UInt8.ofNat c.toNat ∈ (relative style.dotted f.names t.names).os.bytes := by
      rw [← mk_text hunicode, OsString.bytes_ofString]
      exact (Text.Utf8.mem_encode_iff hlow).2 hc
    rcases mem_bytes_relative (h.isFileName t hmem) hb with hb | hb | ⟨n, hn, hb⟩
    · exact hslash hb
    · exact hdot hb
    · rw [← (hnames n hn).1, OsString.bytes_ofString] at hb
      exact hout n hn ((Text.Utf8.mem_encode_iff hlow).1 hb)
  have ht : drafts[id]? = some t := ht
  simp only [ht, Option.map_some, Option.getD_some]
  exact ⟨hchars _ (by decide) (by decide) (by decide) fun n hn => (hnames n hn).2.double,
    hchars _ (by decide) (by decide) (by decide) fun n hn => (hnames n hn).2.single,
    hchars _ (by decide) (by decide) (by decide) fun n hn => (hnames n hn).2.lineFeed⟩

/-- **The requests of a file lead to the files that it imports**, in order. -/
theorem AreWritable.map_resolve_specifiers (h : AreWritable drafts) (hf : f ∈ drafts) :
    (specifiers (f.text drafts).toUTF8.data.toList).map (fun spec => resolve f.path spec.request) =
      f.imports.map fun edge => (drafts[edge.1]?.map Draft.path).getD .empty := by
  have hplaces := congrArg (List.map (resolve f.path))
    (map_request_specifiers_written (h.isQuotable_of_mem_lines hf))
  rw [← Text.Utf8.toList_toUTF8_ofList] at hplaces
  unfold lines at hplaces
  simp only [List.map_map, Function.comp_def, String.ofList_toList] at hplaces
  refine hplaces.trans (List.map_congr_left fun ⟨id, style⟩ hedge => ?_)
  obtain ⟨t, hmem, ht, hnames⟩ := h.exists_target hf hedge
  have ht : drafts[id]? = some t := ht
  simp only [ht, Option.map_some, Option.getD_some]
  exact resolve_relative (h.isFileName f hf) (h.ne_nil f hf) (h.isFileName t hmem) (h.ne_nil t hmem)
    (fun n hn => (hnames n hn).1) _

end Draft

namespace ImportGraph

variable {drafts : List Draft} {opener : Opener}

/-- The nodes of a graph of drafts are the drafts, in order. -/
theorem exists_node?_of_draft {g : ImportGraph} {i : NodeId} {f : Draft} (h : Draft.AreWritable drafts)
    (hg : g.IsGraphOf (drafts.map Draft.file) opener) (hi : drafts[i]? = some f) :
    ∃ node, g.node? i = some node ∧ node.name = f.name ∧ node.path = f.path := by
  have hnodes := hg.nodes
  rw [h.areDistinct.distinctFiles_eq] at hnodes
  have hnode := congrArg (fun files => files[i]?) hnodes
  simp only [List.getElem?_map, Array.getElem?_toList, hi, Option.map_some] at hnode
  obtain ⟨node, hn, hfile⟩ := Option.map_eq_some_iff.1 hnode
  exact ⟨node, hn, congrArg DiscoveredFile.name hfile, congrArg DiscoveredFile.path hfile⟩

/-- The edges of a node are those that were written in its file. -/
theorem deps_of_draft {g : ImportGraph} {i : NodeId} {f : Draft} {node : SourceFile}
    (h : Draft.AreWritable drafts) (hg : g.IsGraphOf (drafts.map Draft.file) opener)
    (hw : g.WellIndexed) (hr : opener.Reads f.path (f.text drafts).toUTF8.data.toList) (hf : f ∈ drafts)
    (hi : g.node? i = some node) (hpath : node.path = f.path) :
    node.deps = f.imports.map Prod.fst := by
  obtain ⟨bytes, hread, hdeps⟩ := hg.deps hi
  rw [hpath] at hread hdeps
  have hbytes : bytes = (f.text drafts).toUTF8.data.toList :=
    congrArg Reader.bytes (Except.ok.inj (hread.symm.trans hr))
  have hplaces := congrArg (List.filterMap g.idAt?) (h.map_resolve_specifiers hf)
  simp only [List.filterMap_map, Function.comp_def] at hplaces
  rw [hdeps, hbytes, hplaces, ← List.filterMap_eq_map]
  refine List.filterMap_congr fun edge hedge => ?_
  obtain ⟨t, -, ht, -⟩ := h.exists_target hf hedge
  obtain ⟨m, hm, -, hp⟩ := exists_node?_of_draft h hg ht
  rw [ht]
  exact hw.idAt?_eq_some_iff.2 ⟨m, hm, hp⟩

/-- **Building undoes writing.** From the files that have been written for any graph, that graph is built. -/
theorem build_written (h : Draft.AreWritable drafts)
    (hr : ∀ f ∈ drafts, opener.Reads f.path (f.text drafts).toUTF8.data.toList) :
    ∃ g, build (drafts.map Draft.file) opener = .ok g ∧
      g.nodes.toList = drafts.map fun f => ⟨f.name, f.path, f.imports.map Prod.fst⟩ := by
  have hdistinct := h.areDistinct
  have hreads : ∀ file ∈ drafts.map Draft.file, ∃ bytes, opener.Reads file.path.normalize bytes := by
    intro file hfile
    rw [hdistinct.normal file hfile]
    obtain ⟨f, hf, rfl⟩ := List.mem_map.1 hfile
    exact ⟨_, hr f hf⟩
  obtain ⟨g, hg⟩ := exists_build_of_reads hreads
  have hgraph := isGraphOf_of_build hg
  have hw := wellIndexed_of_build hg
  have hlength : g.nodes.toList.length = drafts.length := by
    have hnodes := congrArg List.length hgraph.nodes
    rwa [hdistinct.distinctFiles_eq, List.length_map, List.length_map] at hnodes
  refine ⟨g, hg, List.ext_getElem? fun i => ?_⟩
  rw [List.getElem?_map]
  cases hi : drafts[i]? with
  | none =>
    rw [List.getElem?_eq_none_iff] at hi
    rw [List.getElem?_eq_none (hlength ▸ hi)]
    rfl
  | some f =>
    have hf : f ∈ drafts := List.mem_of_getElem? hi
    obtain ⟨node, hn, hname, hpath⟩ := exists_node?_of_draft h hgraph hi
    have hdeps := deps_of_draft h hgraph hw (hr f hf) hf hn hpath
    rw [Array.getElem?_toList, show g.nodes[i]? = some node from hn]
    cases node
    exact congrArg some (by rw [SourceFile.mk.injEq]; exact ⟨hname, hpath, hdeps⟩)

/-! ## A graph with a cycle -/

/-- Two files that import each other, one of them also itself, and a file that nothing imports, whose name is no
text; the names and bindings hold the words of a statement, and the text is not all ASCII. -/
def sampleDrafts : List Draft :=
  [⟨"import from.sol", ["src", "import from.sol"],
      [(1, { bindings := none, quote := '\x22', semicolon := true, dotted := false, returns := false }),
        (0, { bindings := some "* import from".toList, quote := '\x27', semicolon := false,
              dotted := true, returns := true })]⟩,
    ⟨"Ü;.sol", ["lib", "a", "Ü;.sol"],
      [(0, { bindings := some "\x7bA, B\x7d".toList, quote := '\x22', semicolon := true,
             dotted := true, returns := false })]⟩,
    ⟨"\uFFFD", [⟨[0xFF]⟩],
      [(1, { bindings := none, quote := '\x22', semicolon := true, dotted := true, returns := false })]⟩]

/-- The files are read as they have been written. -/
def sampleDraftOpener : Opener := fun p =>
  match sampleDrafts.find? fun f => f.path = p with
  | some f => .ok ⟨(f.text sampleDrafts).toUTF8.data.toList, none⟩
  | none => .ok ⟨[], none⟩

/-- The graph of the files is built. -/
theorem build_written_sample :
    (sampleDrafts.map fun f => f.text sampleDrafts) =
        ["import \x22../lib/a/Ü;.sol\x22;\nimport * import from from './../src/import from.sol'\r\n",
          "import \x7bA, B\x7d from \x22./../../src/import from.sol\x22;\n",
          "import \x22./lib/a/Ü;.sol\x22;\n"] ∧
      ∃ g, build (sampleDrafts.map Draft.file) sampleDraftOpener = .ok g ∧
        g.nodes.toList.map SourceFile.deps = [[1, 0], [0], [1]] := by
  have hwritable : Draft.AreWritable sampleDrafts :=
    ⟨by decide, by decide +kernel, by decide +kernel, by decide +kernel, by decide⟩
  have hreads : ∀ f ∈ sampleDrafts,
      sampleDraftOpener.Reads f.path (f.text sampleDrafts).toUTF8.data.toList := by
    have hfound : ∀ f ∈ sampleDrafts, sampleDrafts.find? (fun g => g.path = f.path) = some f := by
      intro f hf
      simp only [sampleDrafts, List.mem_cons, List.not_mem_nil, or_false] at hf
      rcases hf with rfl | rfl | rfl <;> rfl
    intro f hf
    unfold Opener.Reads sampleDraftOpener
    rw [hfound f hf]
  obtain ⟨g, hg, hnodes⟩ := build_written hwritable hreads
  refine ⟨by decide +kernel, g, hg, ?_⟩
  rw [hnodes]
  rfl

end ImportGraph

end SolVendor
