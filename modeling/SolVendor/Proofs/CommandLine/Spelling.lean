import SolVendor.CommandLine.Arguments
/-!
# CommandLine — how a command is spelled

What a user says to a command is a list of items: the dependency, options
with their values, and flags. An item can be spelled as one argument, and
an option also as two, if its value does not look like an option
(`Spells`). The arguments are read one by one, and the value of an option
may wait to be recorded until the next item. That does not show in the
end: reading the arguments does with every item, in turn, what the item
says (`parse_of_spelled`).
-/

namespace SolVendor.Arguments

/-- The option as it is named after two hyphens. -/
def ValueOption.name : ValueOption → String
  | root => "root"
  | cacheDir => "cache-dir"
  | libDir => "lib-dir"
  | select => "select"

/-- What an argument, or an option with its value, says. -/
inductive Item where
  | dependency (text : String)
  | option (opt : ValueOption) (value : String)
  | json
  | dryRun
deriving DecidableEq, Repr

/-- The text does not look like an option. -/
def IsPlain (text : String) : Prop :=
  text.toList.head? ≠ some '-'

instance (text : String) : Decidable (IsPlain text) :=
  inferInstanceAs (Decidable (_ ≠ _))

/-- The arguments say the item. The value of an option is attached to it, as in `--root=dir`, or comes
next, as in `--root dir`; then it must not look like an option itself. -/
inductive Spells : Item → List String → Prop
  | dependency {text} (h : IsPlain text) : Spells (.dependency text) [text]
  | attached {opt value} : Spells (.option opt value) ["--" ++ opt.name ++ "=" ++ value]
  | apart {opt value} (h : IsPlain value) : Spells (.option opt value) ["--" ++ opt.name, value]
  | short {value} (h : IsPlain value) : Spells (.option .select value) ["-s", value]
  | json : Spells .json ["--json"]
  | dryRun : Spells .dryRun ["--dry-run"]

/-- The arguments say the items, one after the other. -/
inductive Spelled : List Item → List String → Prop
  | nil : Spelled [] []
  | cons {item items args rest} (h : Spells item args) (hrest : Spelled items rest) :
      Spelled (item :: items) (args ++ rest)

/-! ## What an item does -/

/-- What a command can be told once. -/
inductive Slot where
  | root
  | cacheDir
  | libDir
  | json
  | dryRun
deriving DecidableEq, Repr

namespace Item

/-- What the item tells, if it may be told once only. The dependency is no option, and files may be
selected many times. -/
def slot? : Item → Option Slot
  | option .root _ => some .root
  | option .cacheDir _ => some .cacheDir
  | option .libDir _ => some .libDir
  | json => some .json
  | dryRun => some .dryRun
  | option .select _ | dependency _ => none

/-- The dependency that the item tells. -/
def dependency? : Item → Option String
  | dependency text => some text
  | _ => none

/-- The value that the item gives to an option. -/
def value? (opt : ValueOption) : Item → Option String
  | option other value => if other = opt then some value else none
  | _ => none

/-- The item has a value if it needs one. -/
def HasValue : Item → Prop
  | dependency text => text ≠ ""
  | option _ value => value ≠ ""
  | json | dryRun => True

end Item

namespace State

variable {s t : State} {item : Item} {items : List Item} {args : List String} {opt : ValueOption}
  {value arg : String}

/-- It has been told. -/
def isSet (s : State) : Slot → Bool
  | .root => s.root.isSome
  | .cacheDir => s.cacheDir.isSome
  | .libDir => s.libDir.isSome
  | .json => s.json
  | .dryRun => s.dryRun

/-- Take what an item says. -/
def put (s : State) : Item → State
  | .dependency text => { s with dependency := some text }
  | .option .root value => { s with root := some ⟨value⟩ }
  | .option .cacheDir value => { s with cacheDir := some ⟨value⟩ }
  | .option .libDir value => { s with libDir := some ⟨value⟩ }
  | .option .select value => { s with select := s.select ++ [value] }
  | .json => { s with json := true }
  | .dryRun => { s with dryRun := true }

/-- Take what an item says, if it has not been told before. -/
def add (s : State) (item : Item) : Except UsageError State :=
  if item.slot?.any s.isSet then .error .repeatedArgument else .ok (s.put item)

theorem eq_put_of_add (h : s.add item = .ok t) : t = s.put item := by
  unfold add at h
  split at h
  · cases h
  · exact (Except.ok.inj h).symm

theorem pending_put (s : State) (item : Item) : (s.put item).pending = s.pending := by
  fun_cases put s item <;> rfl

theorem onlyPositional_put (s : State) (item : Item) :
    (s.put item).onlyPositional = s.onlyPositional := by
  fun_cases put s item <;> rfl

theorem dependency_put (s : State) (item : Item) :
    (s.put item).dependency = item.dependency?.or s.dependency := by
  fun_cases put s item <;> rfl

/-! ## One item is read -/

theorem newPath_bind (h : value ≠ "") (old : Option Path) (f : Option Path → Except UsageError State) :
    (newPath old value >>= f) =
      if old.isSome then .error .repeatedArgument else f (some ⟨value⟩) := by
  unfold newPath
  rw [if_neg h]
  split <;> rfl

/-- To record a value is to take what the option says. -/
theorem record_of_hasValue (h : (Item.option opt value).HasValue) :
    s.record opt value = s.add (.option opt value) := by
  cases opt with
  | root => exact newPath_bind h s.root _
  | cacheDir => exact newPath_bind h s.cacheDir _
  | libDir => exact newPath_bind h s.libDir _
  | select => rfl

theorem record_ok (h : s.record opt value = .ok t) :
    t.pending = s.pending ∧ t.dependency = s.dependency ∧ t.onlyPositional = s.onlyPositional := by
  cases opt with
  | root | cacheDir | libDir =>
    simp only [record, bind, Except.bind] at h
    split at h
    · cases h
    · cases h
      exact ⟨rfl, rfl, rfl⟩
  | select =>
    cases h
    exact ⟨rfl, rfl, rfl⟩

/-- Once it is recorded, no option is pending. -/
theorem flush_ok (h : s.flush = .ok t) :
    t.pending = none ∧ t.dependency = s.dependency ∧ t.onlyPositional = s.onlyPositional := by
  unfold flush at h
  split at h
  · rename_i hnone
    cases h
    exact ⟨hnone, rfl, rfl⟩
  · cases h
  · exact record_ok h

theorem flush_of_pending_eq_none (h : s.pending = none) : s.flush = .ok s := by
  unfold flush
  rw [h]

/-- The next argument begins an item: it is not after `--`, and no value is to come. -/
structure IsReady (s : State) : Prop where
  onlyPositional : s.onlyPositional = false
  pending : ∀ opt, s.pending ≠ some (opt, none)

theorem IsReady.flush (hready : s.IsReady) (h : s.flush = .ok t) : t.IsReady := by
  obtain ⟨hpending, -, honly⟩ := flush_ok h
  refine ⟨honly.trans hready.onlyPositional, fun opt => ?_⟩
  rw [hpending]
  exact nofun

theorem IsReady.put (hready : s.IsReady) (item : Item) : (s.put item).IsReady :=
  ⟨(onlyPositional_put s item).trans hready.onlyPositional,
    fun opt => pending_put s item ▸ hready.pending opt⟩

/-- What an item says is recorded at once. -/
theorem add_flush (hpending : s.pending = none) (item : Item) :
    (s.add item >>= flush) = s.add item := by
  cases hadd : s.add item with
  | error e => rfl
  | ok t =>
    rw [eq_put_of_add hadd]
    exact flush_of_pending_eq_none ((pending_put s item).trans hpending)

theorem read_of_isPlain (honly : s.onlyPositional = false) (h : IsPlain arg) :
    s.read arg = s.value arg := by
  unfold IsPlain at h
  unfold read
  rw [honly, if_neg Bool.false_ne_true]
  split
  · rename_i htext
    exact absurd (congrArg List.head? htext) h
  · rename_i htext
    exact absurd (congrArg List.head? htext) h
  · rename_i htext
    exact absurd (congrArg List.head? htext) h
  · rfl

theorem read_long {cs : List Char} (honly : s.onlyPositional = false)
    (htext : arg.toList = '-' :: '-' :: cs) (hcs : cs ≠ []) : s.read arg = s.long cs := by
  obtain ⟨c, cs, rfl⟩ := List.exists_cons_of_ne_nil hcs
  unfold read
  rw [honly, htext]
  rfl

theorem read_attached (honly : s.onlyPositional = false) (opt : ValueOption) (value : String) :
    s.read ("--" ++ opt.name ++ "=" ++ value) = s.attach opt value := by
  have hlong : s.long (opt.name.toList ++ '=' :: value.toList) =
      s.attach opt (String.ofList value.toList) := by
    cases opt <;> rfl
  rw [read_long honly _ (List.append_ne_nil_of_right_ne_nil _ (List.cons_ne_nil _ _)), hlong,
    String.ofList_toList]
  simp

theorem read_name (honly : s.onlyPositional = false) (opt : ValueOption) :
    s.read ("--" ++ opt.name) = s.announce opt := by
  have hlong : s.long opt.name.toList = s.announce opt := by
    cases opt <;> rfl
  rw [read_long honly _ _, hlong]
  · rw [String.toList_append]
    rfl
  · cases opt <;> decide

/-- The value of an option is what comes next, if it does not look like an option. -/
theorem announce_read (hready : s.IsReady) (h : IsPlain value) :
    (s.announce opt >>= fun t => t.read value) =
      s.flush >>= fun t => .ok { t with pending := some (opt, some value) } := by
  unfold announce
  cases hflush : s.flush with
  | error e => rfl
  | ok t =>
    exact read_of_isPlain (hready.flush hflush).onlyPositional h

theorem set_flag (told : Bool) (t : State) :
    (do
      if told then throw .repeatedArgument
      return t) = if told then (.error .repeatedArgument : Except UsageError State) else .ok t := by
  cases told <;> rfl

theorem read_json (honly : s.onlyPositional = false) :
    s.read "--json" = s.flush >>= fun t => t.add .json := by
  rw [read_long honly rfl (List.cons_ne_nil _ _)]
  exact bind_congr fun t => set_flag t.json _

theorem read_dryRun (honly : s.onlyPositional = false) :
    s.read "--dry-run" = s.flush >>= fun t => t.add .dryRun := by
  rw [read_long honly rfl (List.cons_ne_nil _ _)]
  exact bind_congr fun t => set_flag t.dryRun _

theorem read_short (honly : s.onlyPositional = false) : s.read "-s" = s.announce .select := by
  unfold read
  rw [honly]
  rfl

/-- A positional argument is the dependency, if there is none yet. -/
theorem read_dependency (hready : s.IsReady) (h : IsPlain arg) (hnone : s.dependency = none) :
    s.read arg = s.flush >>= fun t => t.add (.dependency arg) := by
  rw [read_of_isPlain hready.onlyPositional h]
  unfold value
  split
  · rename_i hpending
    exact absurd hpending (hready.pending _)
  · unfold positional
    rw [hnone]
    rfl

/-- **An item is taken after what was pending**, or it becomes pending itself. -/
theorem foldlM_read (hready : s.IsReady) (h : Spells item args) (hvalue : item.HasValue)
    (hone : item.dependency?.isSome → s.dependency = none) :
    args.foldlM read s = (s.flush >>= fun t => t.add item) ∨
      ∃ opt value, item = .option opt value ∧
        args.foldlM read s = s.flush >>= fun t => .ok { t with pending := some (opt, some value) } := by
  have honly := hready.onlyPositional
  cases h with
  | dependency h =>
    left
    rw [List.foldlM_cons, read_dependency hready h (hone rfl)]
    exact bind_pure _
  | @attached opt value =>
    left
    rw [List.foldlM_cons, read_attached honly]
    simp only [List.foldlM_nil, bind_pure]
    exact bind_congr fun t => record_of_hasValue hvalue
  | apart h =>
    refine .inr ⟨_, _, rfl, ?_⟩
    rw [List.foldlM_cons, read_name honly, ← announce_read hready h]
    simp only [List.foldlM_cons, List.foldlM_nil, bind_pure]
  | short h =>
    refine .inr ⟨_, _, rfl, ?_⟩
    rw [List.foldlM_cons, read_short honly, ← announce_read hready h]
    simp only [List.foldlM_cons, List.foldlM_nil, bind_pure]
  | json =>
    left
    rw [List.foldlM_cons, read_json honly]
    exact bind_pure _
  | dryRun =>
    left
    rw [List.foldlM_cons, read_dryRun honly]
    exact bind_pure _

theorem flush_of_pending_eq_some (hpending : t.pending = none)
    (h : (Item.option opt value).HasValue) :
    { t with pending := some (opt, some value) }.flush = t.add (.option opt value) := by
  have hrecorded : { t with pending := none } = t := by rw [← hpending]
  rw [← record_of_hasValue h, ← hrecorded]
  rfl

/-- Once what is pending has been recorded, the item has been taken; and another item may be read. -/
theorem foldlM_read_flush_item (hready : s.IsReady) (h : Spells item args) (hvalue : item.HasValue)
    (hone : item.dependency?.isSome → s.dependency = none) :
    (args.foldlM read s >>= flush) = (s.flush >>= fun t => t.add item) ∧
      ∀ u, args.foldlM read s = .ok u →
        u.IsReady ∧ u.dependency = item.dependency?.or s.dependency := by
  have hread := foldlM_read hready h hvalue hone
  cases hflush : s.flush with
  | error e =>
    rw [hflush] at hread
    obtain hread | ⟨_, _, _, hread⟩ := hread
    all_goals
      rw [hread]
      exact ⟨rfl, fun _ hu => nomatch hu⟩
  | ok t =>
    obtain ⟨hpending, hdependency, -⟩ := flush_ok hflush
    have ht : t.IsReady := hready.flush hflush
    rw [hflush] at hread
    obtain hread | ⟨opt, value, rfl, hread⟩ := hread
    · rw [hread]
      refine ⟨add_flush hpending item, fun u hu => ?_⟩
      have hput : u = t.put item := eq_put_of_add hu
      rw [hput, dependency_put, hdependency]
      exact ⟨ht.put item, rfl⟩
    · -- The value has been read, but it is recorded with the next item.
      rw [hread]
      refine ⟨flush_of_pending_eq_some hpending hvalue, fun u hu => ?_⟩
      cases hu
      exact ⟨⟨ht.onlyPositional, fun _ h => nomatch h⟩, hdependency⟩

/-! ## A command is read -/

/-- If there is one dependency in all, it is not told twice. -/
theorem dependency_once (hone : ((item :: items).filterMap Item.dependency?).length +
      s.dependency.toList.length ≤ 1) :
    (item.dependency?.isSome → s.dependency = none) ∧
      (items.filterMap Item.dependency?).length +
        (item.dependency?.or s.dependency).toList.length ≤ 1 := by
  cases hitem : item.dependency? with
  | none =>
    rw [List.filterMap_cons_none hitem] at hone
    exact ⟨nofun, hone⟩
  | some text =>
    rw [List.filterMap_cons_some hitem, List.length_cons] at hone
    have hnone : s.dependency.toList.length = 0 := by omega
    refine ⟨fun _ => Option.toList_eq_nil_iff.1 (List.length_eq_zero_iff.1 hnone), ?_⟩
    rw [Option.some_or, Option.toList_some, List.length_singleton]
    omega

/-- **Reading a command takes its items in turn**, after what was pending. -/
theorem foldlM_read_flush (hready : s.IsReady) (h : Spelled items args)
    (hvalue : ∀ item ∈ items, item.HasValue)
    (hone : (items.filterMap Item.dependency?).length + s.dependency.toList.length ≤ 1) :
    (args.foldlM read s >>= flush) = s.flush >>= fun t => items.foldlM add t := by
  induction h generalizing s with
  | nil =>
    rw [List.foldlM_nil, pure_bind]
    exact (bind_pure _).symm
  | @cons item items args rest h hrest ih =>
    obtain ⟨hitem, hitems⟩ := List.forall_mem_cons.1 hvalue
    obtain ⟨hfirst, honce⟩ := dependency_once hone
    obtain ⟨hstep, hnext⟩ := foldlM_read_flush_item hready h hitem hfirst
    rw [List.foldlM_append, bind_assoc]
    -- Whether the item has been recorded before the next one is read makes no difference.
    calc (args.foldlM read s >>= fun u => rest.foldlM read u >>= flush)
        = args.foldlM read s >>= fun u => u.flush >>= fun t => items.foldlM add t := by
          cases hread : args.foldlM read s with
          | error e => rfl
          | ok u =>
            obtain ⟨hu, hdependency⟩ := hnext u hread
            exact ih hu hitems (hdependency ▸ honce)
      _ = (args.foldlM read s >>= flush) >>= fun t => items.foldlM add t := (bind_assoc _ _ _).symm
      _ = s.flush >>= fun t => (item :: items).foldlM add t := by
          rw [hstep, bind_assoc]
          rfl

/-- What has been told, when nothing is pending. -/
def conclude (s : State) : Except UsageError Config :=
  match s.dependency with
  | none => .error .missingDependency
  | some dependency => .ok {
      dependency
      projectRoot := s.root
      cacheDir := s.cacheDir
      libDir := s.libDir.getD defaultLibDir
      select := s.select
      json := s.json
      dryRun := s.dryRun }

theorem finish_eq (s : State) : s.finish = s.flush >>= conclude := by
  unfold finish
  refine bind_congr fun t => ?_
  unfold conclude
  cases t.dependency <;> rfl

end State

/-- **What a command says is all that matters**, not how it is spelled. -/
theorem parse_of_spelled {items : List Item} {args : List String} (h : Spelled items args)
    (hvalue : ∀ item ∈ items, item.HasValue)
    (hone : (items.filterMap Item.dependency?).length ≤ 1) :
    parse args = items.foldlM State.add {} >>= State.conclude := by
  have hready : ({} : State).IsReady := ⟨rfl, fun _ => nofun⟩
  have hread := State.foldlM_read_flush hready h hvalue hone
  unfold parse
  simp only [State.finish_eq]
  rw [← bind_assoc, hread]
  rfl

end SolVendor.Arguments
