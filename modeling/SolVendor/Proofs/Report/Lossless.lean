import SolVendor.CommandLine.Command
import SolVendor.Proofs.Path.Unicode
import SolVendor.Proofs.Report.Written
/-!
# Report — nothing is lost in JSON

The result of a command can be put together again from the JSON that it is
reported in. `ofValue?` does so: it takes an object with the fields of a
result, all of them and in the order in which they are declared, and takes
nothing else. A report is made of every result whose paths are texts. What the
result is written as is one JSON document, a reader of JSON finds nothing else
in it, and put together that is the result. So different results have different
reports (`Outcome.document_lossless`).
-/

namespace SolVendor

namespace Json.Value

/-- The names of an object's members, in their order. -/
def keys : Value → List String
  | obj members => members.map Prod.fst
  | _ => []

def bool? : Value → Option Bool
  | bool b => some b
  | _ => none

/-- A number without sign and fraction. -/
def nat? : Value → Option Nat
  | num q => if q = (q.num.toNat : Rat) then some q.num.toNat else none
  | _ => none

def str? : Value → Option String
  | str s => some s
  | _ => none

def path? (v : Value) : Option Path :=
  v.str?.map Path.mk

/-- A list of which every item is read. -/
def list? {α : Type} (item? : Value → Option α) : Value → Option (List α)
  | arr items => items.mapM item?
  | _ => none

variable {v : Value}

theorem bool?_eq_some_iff {b : Bool} : v.bool? = some b ↔ v = .bool b := by
  cases v <;> simp [bool?]

theorem str?_eq_some_iff {s : String} : v.str? = some s ↔ v = .str s := by
  cases v <;> simp [str?]

theorem path?_eq_some_iff {p : Path} : v.path? = some p ↔ v = .str p.text ∧ p.IsUnicode := by
  rw [← str?_eq_some_iff, path?, Option.map_eq_some_iff]
  constructor
  · rintro ⟨s, hs, rfl⟩
    exact ⟨by rwa [Path.text_mk], Path.isUnicode_mk s⟩
  · exact fun ⟨hs, hp⟩ => ⟨p.text, hs, Path.mk_text hp⟩

theorem nat?_eq_some_iff {n : Nat} : v.nat? = some n ↔ v = .num n := by
  constructor
  · intro h
    cases v with
    | num q =>
      simp only [nat?, Option.ite_none_right_eq_some, Option.some.injEq] at h
      rw [h.1, h.2]
    | _ => cases h
  · rintro rfl
    simp [nat?]

/-- A list is read from its items only. The items may have to be of some kind. -/
theorem list?_eq_some_iff_forall {α : Type} {toJson : α → Json} {item? : Value → Option α} {P : α → Prop}
    (h : ∀ v a, item? v = some a ↔ v = (toJson a).value ∧ P a) {as : List α} :
    v.list? item? = some as ↔ v = (Json.arr (as.map toJson)).value ∧ ∀ a ∈ as, P a := by
  have hmapM : ∀ vs, vs.mapM item? = some as ↔ vs = (as.map fun a => (toJson a).value) ∧ ∀ a ∈ as, P a := by
    intro vs
    induction vs generalizing as with
    | nil => cases as <;> simp
    | cons v vs ih =>
      simp only [List.mapM_cons, Option.bind_eq_bind, Option.bind_eq_some_iff, Option.pure_def, h, ih]
      cases as with
      | nil => simp
      | cons a as =>
        rw [List.map_cons, List.cons.injEq, List.forall_mem_cons]
        constructor
        · rintro ⟨a', ⟨rfl, ha⟩, as', ⟨rfl, has⟩, heq⟩
          obtain ⟨rfl, rfl⟩ := List.cons.inj (Option.some.inj heq)
          exact ⟨⟨rfl, rfl⟩, ha, has⟩
        · rintro ⟨⟨rfl, rfl⟩, ha, has⟩
          exact ⟨a, ⟨rfl, ha⟩, as, ⟨rfl, has⟩, rfl⟩
  cases v <;> simp [list?, value, values_eq_map, hmapM, Function.comp_def]

theorem list?_eq_some_iff {α : Type} {toJson : α → Json} {item? : Value → Option α}
    (h : ∀ v a, item? v = some a ↔ v = (toJson a).value) {as : List α} :
    v.list? item? = some as ↔ v = (Json.arr (as.map toJson)).value := by
  rw [list?_eq_some_iff_forall (P := fun _ => True) fun v a => by rw [h, and_true]]
  simp

theorem list?_str_eq_some_iff {ss : List String} :
    v.list? str? = some ss ↔ v = (Json.arr (ss.map .str)).value :=
  list?_eq_some_iff fun _ _ => str?_eq_some_iff

theorem list?_path_eq_some_iff {ps : List Path} :
    v.list? path? = some ps ↔
      v = (Json.arr (ps.map fun p => .str p.text)).value ∧ ∀ p ∈ ps, p.IsUnicode :=
  list?_eq_some_iff_forall fun _ _ => path?_eq_some_iff

end Json.Value

open Json (Value)

/-! ## Results put together -/

def Dependency.ofValue? : Value → Option Dependency
  | .obj [("name", name), ("version", version), ("path", path)] => do
    return ⟨← name.str?, ← version.str?, ← path.str?⟩
  | _ => none

def ListedFile.ofValue? : Value → Option ListedFile
  | .obj [("name", name), ("path", path), ("selected", selected), ("deps", deps)] => do
    return ⟨← name.str?, ← path.str?, ← selected.bool?, ← deps.list? Value.str?⟩
  | _ => none

def Listing.ofValue? : Value → Option Listing
  | .obj [("dependency", dependency), ("tree", tree), ("files", files), ("edges", edges)] => do
    return ⟨← Dependency.ofValue? dependency, ← tree.path?, ← files.list? ListedFile.ofValue?,
      ← edges.nat?⟩
  | _ => none

def Installation.ofValue? : Value → Option Installation
  | .obj [("dependency", dependency), ("destination", destination), ("selected", selected),
      ("files", files), ("dry_run", dryRun)] => do
    return ⟨← Dependency.ofValue? dependency, ← destination.path?, ← selected.list? Value.str?,
      ← files.list? Value.path?, ← dryRun.bool?⟩
  | _ => none

section

variable {v : Value}

theorem Dependency.ofValue?_eq_some_iff {d : Dependency} :
    ofValue? v = some d ↔ v = d.toJson.value := by
  constructor
  · intro h
    unfold ofValue? at h
    split at h
    · simp only [Option.bind_eq_bind, Option.bind_eq_some_iff, Option.pure_def,
        Value.str?_eq_some_iff] at h
      obtain ⟨name, rfl, version, rfl, path, rfl, h⟩ := h
      cases h
      rfl
    · cases h
  · rintro rfl
    rfl

theorem ListedFile.ofValue?_eq_some_iff {f : ListedFile} :
    ofValue? v = some f ↔ v = f.toJson.value := by
  constructor
  · intro h
    unfold ofValue? at h
    split at h
    · simp only [Option.bind_eq_bind, Option.bind_eq_some_iff, Option.pure_def,
        Value.str?_eq_some_iff, Value.bool?_eq_some_iff, Value.list?_str_eq_some_iff] at h
      obtain ⟨name, rfl, path, rfl, selected, rfl, deps, rfl, h⟩ := h
      cases h
      rfl
    · cases h
  · rintro rfl
    have hfields : ofValue? f.toJson.value =
        ((Json.arr (f.deps.map .str)).value.list? Value.str?).bind fun deps =>
          some ⟨f.name, f.path, f.selected, deps⟩ := rfl
    rw [hfields, Value.list?_str_eq_some_iff.2 rfl]
    rfl

theorem Listing.ofValue?_eq_some_iff {l : Listing} :
    ofValue? v = some l ↔ v = l.toJson.value ∧ l.tree.IsUnicode := by
  have hfiles : ∀ {v : Value} {files : List ListedFile},
      v.list? ListedFile.ofValue? = some files ↔ v = (Json.arr (files.map ListedFile.toJson)).value :=
    Value.list?_eq_some_iff fun _ _ => ListedFile.ofValue?_eq_some_iff
  constructor
  · intro h
    unfold ofValue? at h
    split at h
    · simp only [Option.bind_eq_bind, Option.bind_eq_some_iff, Option.pure_def,
        Dependency.ofValue?_eq_some_iff, Value.path?_eq_some_iff, hfiles, Value.nat?_eq_some_iff] at h
      obtain ⟨dependency, rfl, tree, ⟨rfl, htree⟩, files, rfl, edges, rfl, h⟩ := h
      cases h
      exact ⟨rfl, htree⟩
    · cases h
  · rintro ⟨rfl, htree⟩
    have hfields : ofValue? l.toJson.value =
        (Value.str l.tree.text).path?.bind fun tree =>
          ((Json.arr (l.files.map ListedFile.toJson)).value.list? ListedFile.ofValue?).bind fun files =>
            (Value.num l.edges).nat?.bind fun edges => some ⟨l.dependency, tree, files, edges⟩ := rfl
    rw [hfields, Value.path?_eq_some_iff.2 ⟨rfl, htree⟩, hfiles.2 rfl, Value.nat?_eq_some_iff.2 rfl]
    rfl

theorem Installation.ofValue?_eq_some_iff {i : Installation} :
    ofValue? v = some i ↔
      v = i.toJson.value ∧ i.destination.IsUnicode ∧ ∀ p ∈ i.files, p.IsUnicode := by
  constructor
  · intro h
    unfold ofValue? at h
    split at h
    · simp only [Option.bind_eq_bind, Option.bind_eq_some_iff, Option.pure_def,
        Dependency.ofValue?_eq_some_iff, Value.path?_eq_some_iff, Value.list?_str_eq_some_iff,
        Value.list?_path_eq_some_iff, Value.bool?_eq_some_iff] at h
      obtain ⟨dependency, rfl, destination, ⟨rfl, hdest⟩, selected, rfl, files, ⟨rfl, hfiles⟩, dryRun,
        rfl, h⟩ := h
      cases h
      exact ⟨rfl, hdest, hfiles⟩
    · cases h
  · rintro ⟨rfl, hdest, hfiles⟩
    have hfields : ofValue? i.toJson.value =
        (Value.str i.destination.text).path?.bind fun destination =>
          ((Json.arr (i.selected.map .str)).value.list? Value.str?).bind fun selected =>
            ((Json.arr (i.files.map fun p => .str p.text)).value.list? Value.path?).bind fun files =>
              some ⟨i.dependency, destination, selected, files, i.dryRun⟩ := rfl
    rw [hfields, Value.path?_eq_some_iff.2 ⟨rfl, hdest⟩, Value.list?_str_eq_some_iff.2 rfl,
      Value.list?_path_eq_some_iff.2 ⟨rfl, hfiles⟩]
    rfl

end

namespace Outcome

/-- The fields of a result, as they are declared. -/
def fields : Outcome → List String
  | listing _ => ["dependency", "tree", "files", "edges"]
  | installation _ => ["dependency", "destination", "selected", "files", "dry_run"]

/-- The result of a command, which has either the fields of a listing or those of an
installation. -/
def ofValue? (v : Value) : Option Outcome :=
  ((Listing.ofValue? v).map listing).or ((Installation.ofValue? v).map installation)

/-- **A result is put together from its own JSON**, and from nothing else, if its paths are texts. -/
theorem ofValue?_eq_some_iff {v : Value} {o : Outcome} :
    ofValue? v = some o ↔ v = o.toJson.value ∧ ∀ p ∈ o.paths, p.IsUnicode := by
  unfold ofValue?
  simp only [Option.or_eq_some_iff, Option.map_eq_some_iff, Option.map_eq_none_iff,
    Listing.ofValue?_eq_some_iff, Installation.ofValue?_eq_some_iff]
  constructor
  · rintro (⟨l, ⟨hv, htree⟩, rfl⟩ | ⟨-, i, ⟨hv, hdest, hfiles⟩, rfl⟩)
    · exact ⟨hv, by simpa [paths] using htree⟩
    · exact ⟨hv, List.forall_mem_cons.2 ⟨hdest, hfiles⟩⟩
  · rintro ⟨rfl, hpaths⟩
    cases o with
    | listing l => exact .inl ⟨l, ⟨rfl, hpaths _ List.mem_cons_self⟩, rfl⟩
    | installation i => exact .inr ⟨rfl, i, ⟨rfl, List.forall_mem_cons.1 hpaths⟩, rfl⟩

theorem keys_toJson : (o : Outcome) → o.toJson.value.keys = o.fields
  | listing _ => rfl
  | installation _ => rfl

theorem read_document (o : Outcome) : Json.read o.toJson.document.toList = some o.toJson.value := by
  have hfeed : Json.IsSpace ['\n'] := Json.isSpace_newLine 0
  unfold Json.document
  rw [String.toList_ofList]
  exact Json.read_of_isDocument (Json.isDocument_chars o.toJson hfeed)

/-- A report is made just of results whose paths are texts. -/
theorem document_eq_ok_iff {o : Outcome} {report : String} :
    o.document = .ok report ↔ report = o.toJson.document ∧ ∀ p ∈ o.paths, p.IsUnicode := by
  unfold document
  split
  · rename_i hpaths
    exact ⟨fun h => ⟨(Except.ok.inj h).symm, hpaths⟩, fun h => congrArg _ h.1.symm⟩
  · rename_i hpaths
    exact ⟨nofun, fun h => absurd h.2 hpaths⟩

/-- **A report in JSON loses nothing.** If the paths of a result are texts, then a report is made: one
document and a line feed. The document stands for one value only, which a reader of the report finds, and that
is an object with the fields of the result in their order; the result is put together again from this value,
and from no other. So different results have different reports. -/
theorem document_lossless :
    (∀ o : Outcome, (∀ p ∈ o.paths, p.IsUnicode) → ∃ report text value,
      o.document = .ok report ∧ report = String.ofList (text ++ ['\n']) ∧
        Json.IsDocument value text ∧ (∀ other, Json.IsDocument other text → other = value) ∧
        Json.read report.toList = some value ∧ value.keys = o.fields ∧
        ofValue? value = some o ∧ (∀ other, ofValue? other = some o → other = value)) ∧
      ∀ (o o' : Outcome) (report : String), o.document = .ok report → o'.document = .ok report → o = o' := by
  constructor
  · intro o hpaths
    have hdocument : Json.IsDocument o.toJson.value (o.toJson.chars 0) := by
      simpa only [List.append_nil] using Json.isDocument_chars o.toJson Json.isSpace_nil
    exact ⟨o.toJson.document, o.toJson.chars 0, o.toJson.value, document_eq_ok_iff.2 ⟨rfl, hpaths⟩, rfl,
      hdocument, fun _ h => h.unique hdocument, o.read_document, o.keys_toJson,
      ofValue?_eq_some_iff.2 ⟨rfl, hpaths⟩, fun _ h => (ofValue?_eq_some_iff.1 h).1⟩
  · intro o o' report ho ho'
    obtain ⟨rfl, hpaths⟩ := document_eq_ok_iff.1 ho
    obtain ⟨hreport, hpaths'⟩ := document_eq_ok_iff.1 ho'
    have hvalue : some o.toJson.value = some o'.toJson.value := by
      rw [← read_document, ← read_document, hreport]
    -- The value that both are written as is put together to one result.
    have hself := ofValue?_eq_some_iff.2 ⟨rfl, hpaths⟩
    have hother := ofValue?_eq_some_iff.2 ⟨Option.some.inj hvalue, hpaths'⟩
    exact Option.some.inj (hself.symm.trans hother)

/-- A listing with a name that has to be escaped. -/
def sampleListing : Outcome :=
  .listing ⟨⟨"a/b", "1.0.0", "a/b@1.0.0"⟩, ⟨"/cache/ä"⟩,
    [⟨"\x22\\\n\x01.sol", "src/\x22\\\n\x01.sol", true, []⟩], 0⟩

/-- It is read back from its report. -/
theorem document_lossless_sample :
    ∃ report, sampleListing.document = .ok report ∧
      (Json.read report.toList).bind ofValue? = some sampleListing := by
  obtain ⟨report, _, value, hreport, -, -, -, hread, -, hvalue, -⟩ :=
    document_lossless.1 sampleListing (by decide +kernel)
  exact ⟨report, hreport, by rw [hread, Option.bind_some, hvalue]⟩

end Outcome

end SolVendor
