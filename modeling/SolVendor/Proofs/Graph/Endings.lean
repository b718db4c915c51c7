import SolVendor.Proofs.Import.Lines
/-!
# Graph — files with either line ending

A file keeps its specifiers, with the numbers of their lines, when each
line feed gets a carriage return before it, and when one more line feed is
put at the end (`specifiers_withReturns`, `specifiers_concat_lineFeed`). A
graph knows no more of a file than its specifiers (`build_congr`), so it is
the same whichever ending each file is written in
(`build_in_either_ending`).
-/

namespace SolVendor

open Text

/-- The bytes with a carriage return before each line feed, also where one stands there already. -/
def Text.withReturns (bs : List UInt8) : List UInt8 :=
  bs.flatMap fun b => if b = lineFeed then [carriageReturn, lineFeed] else [b]

namespace Import

variable {bs rest : List UInt8}

theorem withReturns_of_notMem (h : lineFeed ∉ bs) : withReturns bs = bs := by
  induction bs with
  | nil => rfl
  | cons b bs ih =>
    rw [List.mem_cons, not_or] at h
    unfold withReturns at ih ⊢
    rw [List.flatMap_cons, if_neg (Ne.symm h.1), ih h.2]
    rfl

theorem withReturns_append_lineFeed (h : lineFeed ∉ bs) (rest : List UInt8) :
    withReturns (bs ++ lineFeed :: rest) = bs ++ [carriageReturn] ++ lineFeed :: withReturns rest := by
  have hfront := withReturns_of_notMem h
  unfold withReturns at hfront ⊢
  rw [List.flatMap_append, List.flatMap_cons, hfront, if_pos rfl]
  simp

/-- **On each line the same is found**, with the carriage return or without it. -/
theorem map_scanBytes_withReturns (bs : List UInt8) :
    ((withReturns bs).splitOn lineFeed).map scanBytes = (bs.splitOn lineFeed).map scanBytes := by
  induction hlen : bs.length using Nat.strongRecOn generalizing bs with
  | _ len ih =>
    by_cases hfeed : lineFeed ∈ bs
    · obtain ⟨line, rest, rfl, hline⟩ := List.eq_append_cons_of_mem hfeed
      rw [List.length_append, List.length_cons] at hlen
      have hreturn : lineFeed ∉ line ++ [carriageReturn] := by
        rw [List.mem_append, not_or]
        exact ⟨hline, by decide⟩
      rw [withReturns_append_lineFeed hline, List.splitOn_append_cons_self,
        List.splitOn_append_cons_self, List.map_append, List.map_append,
        ih rest.length (by omega) rest rfl, List.splitOn_eq_singleton hline,
        List.splitOn_eq_singleton hreturn, List.map_singleton, List.map_singleton,
        scanBytes_concat_return]
    · rw [withReturns_of_notMem hfeed]

/-- **Carriage returns before the line feeds** change no specifier. -/
theorem specifiers_withReturns (bs : List UInt8) : specifiers (withReturns bs) = specifiers bs := by
  rw [specifiers_eq_numbered, specifiers_eq_numbered]
  exact numbered_congr (map_scanBytes_withReturns bs)

/-- **One more line feed at the end** changes none either. -/
theorem specifiers_concat_lineFeed (bs : List UInt8) : specifiers (bs ++ [lineFeed]) = specifiers bs := by
  rw [specifiers_eq_numbered, specifiers_eq_numbered, List.splitOn_append_cons_self,
    List.splitOn_nil, numbered_concat scanBytes_nil]

end Import

/-- The reader of the file in another ending: with carriage returns or without, and with one more line feed at
its end or not. -/
def Reader.rewritten (r : Reader) (returns final : Bool) : Reader :=
  { r with bytes := (if returns then withReturns r.bytes else r.bytes) ++
      if final then [lineFeed] else [] }

/-- The same imports are read off it, and reading fails just if it did. -/
theorem Reader.specifiers_rewritten (r : Reader) (returns final : Bool) (file : Path) :
    (r.rewritten returns final).specifiers file = r.specifiers file := by
  have hbytes : Import.specifiers (r.rewritten returns final).bytes = Import.specifiers r.bytes := by
    unfold rewritten
    cases final with
    | false => cases returns <;> simp [Import.specifiers_withReturns]
    | true => cases returns <;> simp [Import.specifiers_concat_lineFeed, Import.specifiers_withReturns]
  unfold specifiers
  rw [hbytes]
  rfl

namespace ImportGraph

variable {opener opener' : Opener}

/-- **A graph depends on a file by its imports only.** -/
theorem build_congr (h : ∀ p, (opener p >>= fun r => r.specifiers p) = opener' p >>= fun r => r.specifiers p)
    (files : List DiscoveredFile) : build files opener = build files opener' := by
  have hscan : scanNode opener = scanNode opener' := by
    funext g id
    unfold scanNode
    cases g.node? id with
    | none => rfl
    | some node =>
      simp only
      rw [← bind_assoc, ← bind_assoc, h]
  unfold build
  rw [hscan]

/-- **Line endings do not matter.** The specifiers of a file are the same, with the same lines, when every line
feed has become a carriage return and a line feed, and when one more line feed stands at the end; and so is the
graph of some files, whichever of them are changed in these ways. -/
theorem build_in_either_ending (bytes : List UInt8) :
    Import.specifiers (withReturns bytes) = Import.specifiers bytes ∧
      Import.specifiers (bytes ++ [lineFeed]) = Import.specifiers bytes ∧
      ∀ (files : List DiscoveredFile) (opener : Opener) (returns final : Path → Bool),
        build files (fun p => (opener p).map fun r => r.rewritten (returns p) (final p)) =
          build files opener := by
  refine ⟨Import.specifiers_withReturns bytes, Import.specifiers_concat_lineFeed bytes,
    fun files opener returns final => build_congr (fun p => ?_) files⟩
  cases opener p with
  | error e => rfl
  | ok r => exact r.specifiers_rewritten (returns p) (final p) p

end ImportGraph

end SolVendor
