import Mathlib.Data.List.Induction
import SolVendor.Proofs.CommandLine.Spelling
/-!
# CommandLine — a request is understood

A request can be put into arguments in many ways: its items can be spelled
in several ways, and they can stand in any order that keeps the order of
the selected files. It is always understood as the same configuration, and
if it tells anything twice that can be told once only, it is refused
(`parse_spelled`). What is told once is found wherever it stands
(`foldl_put_of_perm`), and no second telling is missed (`foldlM_add`).
-/

namespace SolVendor.Arguments

/-- What a user wants. What is left out takes its default. -/
structure Request where
  dependency : String
  root : Option String := none
  cacheDir : Option String := none
  libDir : Option String := none
  select : List String := []
  json : Bool := false
  dryRun : Bool := false

namespace Request

/-- What the command is to be run with. -/
def config (r : Request) : Config where
  dependency := r.dependency
  projectRoot := r.root.map Path.mk
  cacheDir := r.cacheDir.map Path.mk
  libDir := (r.libDir.map Path.mk).getD defaultLibDir
  select := r.select
  json := r.json
  dryRun := r.dryRun

/-- The values that options get. -/
def values (r : Request) : ValueOption → List String
  | .root => r.root.toList
  | .cacheDir => r.cacheDir.toList
  | .libDir => r.libDir.toList
  | .select => r.select

/-- The items that say the request. -/
def items (r : Request) : List Item :=
  [.dependency r.dependency]
    ++ [ValueOption.root, .cacheDir, .libDir, .select].flatMap (fun opt => (r.values opt).map (.option opt))
    ++ (if r.json then [.json] else []) ++ (if r.dryRun then [.dryRun] else [])

/-- What the request tells of what can be told once only. -/
def tells (r : Request) : Slot → Bool
  | .root => r.root.isSome
  | .cacheDir => r.cacheDir.isSome
  | .libDir => r.libDir.isSome
  | .json => r.json
  | .dryRun => r.dryRun

/-- The item tells again what the request tells, and can be told once only. -/
def Repeats (r : Request) (again : Item) : Prop :=
  ∃ slot, again.slot? = some slot ∧ r.tells slot = true

theorem filterMap_eq_nil {α : Type} (values : List String) :
    values.filterMap (fun _ => (none : Option α)) = [] :=
  List.filterMap_eq_nil_iff.2 fun _ _ => rfl

theorem filterMap_items {α : Type} (f : Item → Option α) (r : Request) :
    r.items.filterMap f = (f (.dependency r.dependency)).toList
      ++ [ValueOption.root, .cacheDir, .libDir, .select].flatMap (fun opt =>
        (r.values opt).filterMap fun value => f (.option opt value))
      ++ (if r.json then (f .json).toList else []) ++ (if r.dryRun then (f .dryRun).toList else []) := by
  have hsingle : ∀ item, [item].filterMap f = (f item).toList := by
    intro item
    cases hf : f item <;> simp [hf]
  have hflag : ∀ (b : Bool) (item : Item), (if b then [item] else []).filterMap f =
      if b then (f item).toList else [] := by
    intro b item
    cases b
    · rfl
    · exact hsingle item
  have hvalues : ∀ opt, ((r.values opt).map (Item.option opt)).filterMap f =
      (r.values opt).filterMap fun value => f (.option opt value) :=
    fun _ => List.filterMap_map
  simp only [items, List.filterMap_append, hsingle, hflag, List.filterMap_flatMap, hvalues]

theorem filterMap_dependency?_items (r : Request) :
    r.items.filterMap Item.dependency? = [r.dependency] := by
  rw [filterMap_items]
  simp [Item.dependency?]

theorem filterMap_value?_items (r : Request) (opt : ValueOption) :
    r.items.filterMap (Item.value? opt) = r.values opt := by
  rw [filterMap_items]
  cases opt <;>
    simp only [Item.value?, List.flatMap_cons, List.flatMap_nil, filterMap_eq_nil, List.filterMap_some,
      reduceCtorEq, if_true, if_false, ite_self, Option.toList_none, List.append_nil, List.nil_append]

theorem filterMap_slot?_items (r : Request) :
    r.items.filterMap Item.slot? =
      [Slot.root, .cacheDir, .libDir, .json, .dryRun].filter r.tells := by
  have hpath : ∀ (o : Option String) (slot : Slot),
      o.toList.filterMap (fun _ => some slot) = if o.isSome then [slot] else [] := by
    intro o slot
    cases o <;> rfl
  have hfilter : ∀ slots : List Slot,
      slots.filter r.tells = slots.flatMap fun slot => if r.tells slot then [slot] else [] := by
    intro slots
    induction slots with
    | nil => rfl
    | cons slot slots ih =>
      rw [List.filter_cons, List.flatMap_cons, ih]
      split <;> rfl
  rw [filterMap_items, hfilter]
  simp only [Item.slot?, values, hpath, filterMap_eq_nil, List.flatMap_cons, List.flatMap_nil,
    List.append_nil, List.nil_append, List.append_assoc, Option.toList_none, Option.toList_some]
  rfl

/-- A request tells nothing twice. -/
theorem nodup_slots (r : Request) : (r.items.filterMap Item.slot?).Nodup := by
  rw [filterMap_slot?_items]
  exact List.Nodup.sublist List.filter_sublist (by decide)

theorem mem_slots {r : Request} {slot : Slot} :
    slot ∈ r.items.filterMap Item.slot? ↔ r.tells slot = true := by
  rw [filterMap_slot?_items, List.mem_filter]
  exact and_iff_right (by cases slot <;> decide)

end Request

namespace State

variable {items : List Item}

/-! ## Nothing is told twice -/

theorem isSet_put (s : State) (item : Item) (slot : Slot) :
    (s.put item).isSet slot = true ↔ s.isSet slot = true ∨ item.slot? = some slot := by
  fun_cases put s item <;> cases slot <;> simp [isSet, Item.slot?]

theorem isSet_foldl_put (items : List Item) (s : State) (slot : Slot) :
    (items.foldl put s).isSet slot = true ↔
      s.isSet slot = true ∨ slot ∈ items.filterMap Item.slot? := by
  induction items generalizing s with
  | nil => simp
  | cons item items ih =>
    rw [List.foldl_cons, ih, isSet_put, or_assoc]
    simp [List.mem_filterMap]

theorem isSet_foldl_put_start (items : List Item) (slot : Slot) :
    (items.foldl put {}).isSet slot = true ↔ slot ∈ items.filterMap Item.slot? := by
  rw [isSet_foldl_put]
  exact or_iff_right (by cases slot <;> exact Bool.false_ne_true)

/-- After items that tell nothing twice, an item is taken if that is still so with it. -/
theorem add_foldl_put (hnodup : (items.filterMap Item.slot?).Nodup) (item : Item) :
    (items.foldl put {}).add item =
      if ((items ++ [item]).filterMap Item.slot?).Nodup then .ok ((items ++ [item]).foldl put {})
      else .error .repeatedArgument := by
  rw [add, List.filterMap_append, List.foldl_append]
  cases hslot : item.slot? with
  | none =>
    rw [List.filterMap_cons_none hslot, List.filterMap_nil, List.append_nil, if_pos hnodup]
    rfl
  | some slot =>
    have hiff : ((items.filterMap Item.slot?) ++ [slot]).Nodup ↔
        slot ∉ items.filterMap Item.slot? ∧ (items.filterMap Item.slot?).Nodup :=
      (List.perm_append_singleton _ _).nodup_iff.trans List.nodup_cons
    rw [List.filterMap_cons_some hslot, List.filterMap_nil, Option.any_some]
    by_cases hmem : slot ∈ items.filterMap Item.slot?
    · rw [if_pos ((isSet_foldl_put_start items slot).2 hmem), if_neg fun h => (hiff.1 h).1 hmem]
    · rw [if_neg fun h => hmem ((isSet_foldl_put_start items slot).1 h),
        if_pos (hiff.2 ⟨hmem, hnodup⟩)]
      rfl

/-- **The first second telling is refused**, and items without one are all taken. -/
theorem foldlM_add (items : List Item) : items.foldlM add {} =
    if (items.filterMap Item.slot?).Nodup then .ok (items.foldl put {})
    else .error .repeatedArgument := by
  induction items using List.reverseRecOn with
  | nil => rfl
  | append_singleton items item ih =>
    rw [List.foldlM_append, ih]
    by_cases hnodup : (items.filterMap Item.slot?).Nodup
    · rw [if_pos hnodup]
      exact (bind_pure _).trans (add_foldl_put hnodup item)
    · rw [if_neg hnodup, List.filterMap_append, if_neg fun h => hnodup (List.nodup_append.1 h).1]
      rfl

/-! ## What is told once -/

section

variable {α β : Type} {field : State → α} {told? : Item → Option β}

/-- The value of a field is what the last item with something to say about it says. -/
theorem foldl_put (found : β → α)
    (hput : ∀ s item, field (s.put item) = (told? item).elim (field s) found)
    (items : List Item) (s : State) :
    field (items.foldl put s) = (items.filterMap told?).getLast?.elim (field s) found := by
  induction items using List.reverseRecOn with
  | nil => rfl
  | append_singleton items item ih =>
    rw [List.foldl_append, List.foldl_cons, List.foldl_nil, hput, ih, List.filterMap_append]
    cases htold : told? item <;> simp [htold]

/-- **What is told once is found anywhere.** -/
theorem foldl_put_of_perm (found : β → α) {o : Option β}
    (hput : ∀ s item, field (s.put item) = (told? item).elim (field s) found)
    (hperm : (items.filterMap told?).Perm o.toList) (s : State) :
    field (items.foldl put s) = o.elim (field s) found := by
  have htold : items.filterMap told? = o.toList := by
    cases o with
    | none => exact List.perm_nil.1 hperm
    | some a => exact List.perm_singleton.1 hperm
  rw [foldl_put found hput, htold]
  cases o <;> rfl

end

/-- The selected files are found in their order. -/
theorem select_foldl_put (items : List Item) (s : State) :
    (items.foldl put s).select = s.select ++ items.filterMap (Item.value? .select) := by
  induction items generalizing s with
  | nil => simp
  | cons item items ih =>
    rw [List.foldl_cons, ih]
    fun_cases put s item <;> simp [Item.value?, List.filterMap_cons]

theorem path_foldl_put {path : State → Option Path} {opt : ValueOption} {given : Option String}
    (hput : ∀ (s : State) (item : Item),
      path (s.put item) = (item.value? opt).elim (path s) fun value => some ⟨value⟩)
    (hperm : (items.filterMap (Item.value? opt)).Perm given.toList)
    (hnone : path {} = none) : path (items.foldl put {}) = given.map Path.mk := by
  rw [foldl_put_of_perm _ hput hperm, hnone]
  cases given <;> rfl

/-- **A request is found again in its items**, in any order that keeps the order of the selected files. -/
theorem conclude_foldl_put {r : Request} (hperm : items.Perm r.items)
    (hselect : items.filterMap (Item.value? .select) = r.select) :
    (items.foldl put {}).conclude = .ok r.config := by
  have hvalues : ∀ opt, (items.filterMap (Item.value? opt)).Perm (r.values opt) := fun opt =>
    r.filterMap_value?_items opt ▸ hperm.filterMap _
  have hdependency : (items.foldl put {}).dependency = some r.dependency := by
    have htold : (items.filterMap Item.dependency?).Perm [r.dependency] :=
      r.filterMap_dependency?_items ▸ hperm.filterMap _
    refine foldl_put_of_perm some (fun s item => ?_) (o := some r.dependency) htold {}
    fun_cases put s item <;> rfl
  have hroot : (items.foldl put {}).root = r.root.map Path.mk := by
    refine path_foldl_put (fun s item => ?_) (hvalues .root) rfl
    fun_cases put s item <;> rfl
  have hcacheDir : (items.foldl put {}).cacheDir = r.cacheDir.map Path.mk := by
    refine path_foldl_put (fun s item => ?_) (hvalues .cacheDir) rfl
    fun_cases put s item <;> rfl
  have hlibDir : (items.foldl put {}).libDir = r.libDir.map Path.mk := by
    refine path_foldl_put (fun s item => ?_) (hvalues .libDir) rfl
    fun_cases put s item <;> rfl
  have hflag : ∀ slot, (items.foldl put {}).isSet slot = r.tells slot := by
    intro slot
    rw [Bool.eq_iff_iff, isSet_foldl_put_start, (hperm.filterMap _).mem_iff, Request.mem_slots]
  have hjson : (items.foldl put {}).json = r.json := hflag .json
  have hdryRun : (items.foldl put {}).dryRun = r.dryRun := hflag .dryRun
  unfold conclude
  rw [hdependency, hroot, hcacheDir, hlibDir, select_foldl_put, hselect, hjson, hdryRun]
  rfl

end State

/-- **A request is understood however it is spelled and in whatever order its items stand**, as long
as the selected files keep theirs. If it tells again what can be told once only, it is refused. -/
theorem parse_spelled (r : Request) {items : List Item} {args : List String}
    (hspelled : Spelled items args) (hvalue : ∀ item ∈ items, item.HasValue) :
    (items.Perm r.items → items.filterMap (Item.value? .select) = r.select →
      parse args = .ok r.config) ∧
    (∀ again, r.Repeats again → items.Perm (again :: r.items) →
      parse args = .error .repeatedArgument) := by
  constructor
  · intro hperm hselect
    have hone : (items.filterMap Item.dependency?).length = 1 := by
      rw [(hperm.filterMap _).length_eq, r.filterMap_dependency?_items, List.length_singleton]
    have hnodup : (items.filterMap Item.slot?).Nodup :=
      (hperm.filterMap _).nodup_iff.2 r.nodup_slots
    rw [parse_of_spelled hspelled hvalue (Nat.le_of_eq hone), State.foldlM_add, if_pos hnodup]
    exact State.conclude_foldl_put hperm hselect
  · rintro again ⟨slot, hslot, htells⟩ hperm
    have hnone : again.dependency? = none := by
      cases again <;> first | rfl | cases hslot
    have hone : (items.filterMap Item.dependency?).length = 1 := by
      rw [(hperm.filterMap _).length_eq, List.filterMap_cons_none hnone, r.filterMap_dependency?_items,
        List.length_singleton]
    have htwice : ¬ (items.filterMap Item.slot?).Nodup := by
      rw [(hperm.filterMap _).nodup_iff, List.filterMap_cons_some hslot, List.nodup_cons]
      exact fun h => h.1 (Request.mem_slots.2 htells)
    rw [parse_of_spelled hspelled hvalue (Nat.le_of_eq hone), State.foldlM_add, if_neg htwice]
    rfl

/-- Values that look like options, and a root that is given before and after the others. -/
theorem parse_spelled_sample :
    parse ["-s", "B.sol", "--json", "a/b@1.0.0", "--root=-x=y", "--select=--json"] =
        .ok { dependency := "a/b@1.0.0", projectRoot := some ⟨"-x=y"⟩, select := ["B.sol", "--json"],
              json := true } ∧
      parse ["--root", "z", "--json", "a/b@1.0.0", "--root=-x=y", "-s", "B.sol", "--select=--json"] =
        .error .repeatedArgument := by
  let r : Request :=
    { dependency := "a/b@1.0.0", root := some "-x=y", select := ["B.sol", "--json"], json := true }
  have hspelled : Spelled
      [.option .select "B.sol", .json, .dependency "a/b@1.0.0", .option .root "-x=y",
        .option .select "--json"]
      ["-s", "B.sol", "--json", "a/b@1.0.0", "--root=-x=y", "--select=--json"] :=
    .cons (.short (by decide)) (.cons .json (.cons (.dependency (by decide)) (.cons .attached
      (.cons .attached .nil))))
  have hrepeated : Spelled
      [.option .root "z", .json, .dependency "a/b@1.0.0", .option .root "-x=y",
        .option .select "B.sol", .option .select "--json"]
      ["--root", "z", "--json", "a/b@1.0.0", "--root=-x=y", "-s", "B.sol", "--select=--json"] :=
    .cons (.apart (by decide)) (.cons .json (.cons (.dependency (by decide)) (.cons .attached
      (.cons (.short (by decide)) (.cons .attached .nil)))))
  exact ⟨(parse_spelled r hspelled (by simp [Item.HasValue])).1 (by decide) (by decide),
    (parse_spelled r hrepeated (by simp [Item.HasValue])).2 (.option .root "z") ⟨.root, rfl, rfl⟩
      (by decide)⟩

end SolVendor.Arguments
