import Schemata.Record
import Mathlib.Data.List.Induction
import Mathlib.Data.List.Nodup

/-! Ordered records as lists of entries: what setting a name does to the names, to the entries
and to look-ups. A name that is new goes to the end, and all else stays where it is. -/

namespace Schemata.Record

variable {α β : Type}

theorem names_append (first second : Record α) : names (first ++ second) = names first ++ names second := by
  simp [names]

theorem mem_names_of_mem {record : Record α} {name : String} {value : α} (member : (name, value) ∈ record) :
    name ∈ names record :=
  List.mem_map.mpr ⟨_, member, rfl⟩

theorem exists_of_mem_names {record : Record α} {name : String} (member : name ∈ names record) :
    ∃ value, (name, value) ∈ record := by
  obtain ⟨⟨key, value⟩, inside, rfl⟩ := List.mem_map.mp member
  exact ⟨value, inside⟩

theorem has_iff {record : Record α} {name : String} : has record name = true ↔ name ∈ names record := by
  induction record with
  | nil => simp [has, find?, names]
  | cons head rest ih =>
    obtain ⟨key, value⟩ := head
    simp only [has, find?, names, List.lookup_cons, List.map_cons, List.mem_cons] at ih ⊢
    by_cases same : name = key
    · simp [same]
    · have different : (name == key) = false := by simpa using same
      simp only [different, ih, same, false_or]

theorem has_eq_false_iff {record : Record α} {name : String} :
    has record name = false ↔ name ∉ names record := by
  rw [← has_iff, Bool.not_eq_true]

theorem find?_append {first second : Record α} {name : String} {value : α}
    (found : find? first name = some value) : find? (first ++ second) name = some value := by
  simp only [find?, List.lookup_append] at found ⊢
  simp [found]

theorem find?_of_mem {record : Record α} (unique : (names record).Nodup) {name : String} {value : α}
    (member : (name, value) ∈ record) : find? record name = some value := by
  induction record with
  | nil => cases member
  | cons head rest ih =>
    obtain ⟨key, held⟩ := head
    obtain ⟨fresh, others⟩ := List.nodup_cons.mp unique
    rcases List.mem_cons.mp member with same | later
    · cases same
      simp [find?]
    · have different : (name == key) = false := beq_false_of_ne fun same => fresh (same ▸ mem_names_of_mem later)
      rw [find?, List.lookup_cons, different]
      exact ih others later

/-- Entries under other names may be put in anywhere. -/
theorem find?_of_perm {record added grown : Record α} (unique : (names grown).Nodup)
    (moved : (record ++ added).Perm grown) {name : String} (other : name ∉ names added) :
    find? grown name = find? record name := by
  cases found : find? record name with
  | some value =>
    exact find?_of_mem unique (moved.subset (List.mem_append_left added (mem_of_find? found)))
  | none =>
    have absent : name ∉ names record := has_eq_false_iff.mp (by rw [has, found]; rfl)
    have outside : name ∉ names grown := by
      intro inside
      have split := (moved.map Prod.fst).mem_iff.mpr inside
      rw [List.map_append, List.mem_append] at split
      exact split.elim absent other
    simpa [has] using has_eq_false_iff.mpr outside

theorem set_of_notMem {record : Record α} {name : String} (absent : name ∉ names record) (value : α) :
    set record name value = record ++ [(name, value)] := by
  induction record with
  | nil => rfl
  | cons head rest ih =>
    obtain ⟨key, held⟩ := head
    simp only [names, List.map_cons, List.mem_cons, not_or] at absent
    rw [set, if_neg (Ne.symm absent.1), ih absent.2]
    rfl

theorem mem_set {record : Record α} {name : String} {value : α} {entry : String × α}
    (member : entry ∈ set record name value) : entry = (name, value) ∨ entry ∈ record := by
  induction record with
  | nil => exact Or.inl (List.mem_singleton.mp member)
  | cons head rest ih =>
    obtain ⟨key, held⟩ := head
    simp only [set] at member
    split at member
    next same =>
      subst key
      rcases List.mem_cons.mp member with equal | later
      · exact Or.inl equal
      · exact Or.inr (List.mem_cons_of_mem _ later)
    next =>
      rcases List.mem_cons.mp member with equal | later
      · exact Or.inr (equal ▸ List.mem_cons_self)
      · exact (ih later).imp_right (List.mem_cons_of_mem _)

theorem find?_set {record : Record α} {name other : String} {value : α} :
    find? (set record name value) other = if other = name then some value else find? record other := by
  induction record with
  | nil =>
    by_cases same : other = name
    · simp [set, find?, same]
    · simp [set, find?, same]
  | cons head rest ih =>
    obtain ⟨key, held⟩ := head
    simp only [set]
    split
    next equal =>
      subst equal
      by_cases same : other = key
      · simp [find?, same]
      · simp [find?, List.lookup_cons, same, beq_false_of_ne same]
    next different =>
      simp only [find?, List.lookup_cons] at ih ⊢
      rw [ih]
      by_cases same : other = key
      · subst same
        simp [different]
      · simp [beq_false_of_ne same]

theorem mem_names_set_self (record : Record α) (name : String) (value : α) :
    name ∈ names (set record name value) := by
  induction record with
  | nil => simp [set, names]
  | cons head rest ih =>
    obtain ⟨key, held⟩ := head
    simp only [set]
    split
    next same => subst key; simp [names]
    next => exact List.mem_cons_of_mem _ ih

theorem mem_names_set {record : Record α} {other : String} (member : other ∈ names record) (name : String)
    (value : α) : other ∈ names (set record name value) := by
  induction record with
  | nil => cases member
  | cons head rest ih =>
    obtain ⟨key, held⟩ := head
    simp only [set]
    split
    next => exact member
    next =>
      rcases List.mem_cons.mp member with rfl | later
      · exact List.mem_cons_self
      · exact List.mem_cons_of_mem _ (ih later)

theorem eq_or_mem_names {record : Record α} {name other : String} {value : α}
    (member : other ∈ names (set record name value)) : other = name ∨ other ∈ names record := by
  obtain ⟨held, inside⟩ := exists_of_mem_names member
  exact (mem_set inside).imp (congrArg Prod.fst) mem_names_of_mem

theorem names_set (record : Record α) (name : String) (value : α) :
    names (set record name value) = if name ∈ names record then names record else names record ++ [name] := by
  induction record with
  | nil => rfl
  | cons head rest ih =>
    obtain ⟨key, held⟩ := head
    have first (value : α) (others : Record α) : names ((key, value) :: others) = key :: names others := rfl
    by_cases own : key = name
    · rw [set, if_pos own, first, first, if_pos (List.mem_cons.mpr (.inl own.symm))]
    · rw [set, if_neg own, first, first, ih]
      by_cases known : name ∈ names rest
      · rw [if_pos known, if_pos (List.mem_cons_of_mem _ known)]
      · rw [if_neg known, if_neg (by simp [Ne.symm own, known]), List.cons_append]

theorem ofList_concat (entries : List (String × α)) (name : String) (value : α) :
    ofList (entries ++ [(name, value)]) = set (ofList entries) name value := by
  simp only [ofList, List.foldl_append, List.foldl_cons, List.foldl_nil]

theorem mem_ofList {entries : List (String × α)} {entry : String × α} (member : entry ∈ ofList entries) :
    entry ∈ entries := by
  induction entries using List.reverseRecOn with
  | nil => cases member
  | append_singleton entries given ih =>
    obtain ⟨name, value⟩ := given
    rw [ofList_concat] at member
    rcases mem_set member with same | earlier
    · exact List.mem_append_right _ (List.mem_singleton.mpr same)
    · exact List.mem_append_left _ (ih earlier)

/-- Names stand where they were first given. -/
theorem names_ofList (entries : List (String × α)) : names (ofList entries) = (names entries).eraseDups := by
  induction entries using List.reverseRecOn with
  | nil => rfl
  | append_singleton entries entry ih =>
    obtain ⟨name, value⟩ := entry
    rw [ofList_concat, names_set, names_append, List.eraseDups_append, ih]
    show _ = (names entries).eraseDups ++ (List.removeAll [name] (names entries)).eraseDups
    by_cases known : name ∈ names entries
    · rw [if_pos (List.mem_eraseDups.mpr known), List.removeAll, List.filter_cons_of_neg (by simpa using known)]
      exact (List.append_nil _).symm
    · rw [if_neg (mt List.mem_eraseDups.mp known), List.removeAll, List.filter_cons_of_pos (by simpa using known)]
      rfl

theorem names_ofList_nodup (entries : List (String × α)) : (names (ofList entries)).Nodup := by
  induction entries using List.reverseRecOn with
  | nil => exact List.nodup_nil
  | append_singleton entries entry ih =>
    obtain ⟨name, value⟩ := entry
    rw [ofList_concat, names_set]
    split
    next => exact ih
    next absent => exact List.nodup_append_comm.mp (List.nodup_cons.mpr ⟨absent, ih⟩)

/-- Distinct names given in order are the record itself. -/
theorem ofList_of_nodup {record : Record α} (distinct : (names record).Nodup) : ofList record = record := by
  induction record using List.reverseRecOn with
  | nil => rfl
  | append_singleton record entry ih =>
    obtain ⟨name, value⟩ := entry
    rw [names_append] at distinct
    have absent : name ∉ names record := fun inside =>
      (List.disjoint_of_nodup_append distinct) inside (by simp [names])
    rw [ofList_concat, ih distinct.of_append_left, set_of_notMem absent]

def beyond (known : Record β) (record : Record α) : Record α :=
  record.filter fun (name, _) => !has known name

theorem beyond_append (known : Record β) (first second : Record α) :
    beyond known (first ++ second) = beyond known first ++ beyond known second :=
  List.filter_append ..

theorem beyond_self (record : Record α) : beyond record record = [] := by
  apply List.filter_eq_nil_iff.mpr
  intro entry member
  simp [has_iff.mpr (mem_names_of_mem member)]

theorem beyond_of_disjoint {known : Record β} {record : Record α}
    (disjoint : ∀ name ∈ names record, name ∉ names known) : beyond known record = record := by
  apply List.filter_eq_self.mpr
  intro entry member
  simp [has_eq_false_iff.mpr (disjoint _ (mem_names_of_mem member))]

/-- Setting a known name changes nothing beyond the known ones. -/
theorem beyond_set_of_mem {known : Record β} {name : String} (inside : name ∈ names known)
    (record : Record α) (value : α) : beyond known (set record name value) = beyond known record := by
  have hidden : has known name = true := has_iff.mpr inside
  induction record with
  | nil => simp [set, beyond, hidden]
  | cons head rest ih =>
    obtain ⟨key, held⟩ := head
    simp only [set]
    split
    next same => subst key; simp [beyond, hidden]
    next =>
      simp only [beyond, List.filter_cons] at ih ⊢
      rw [ih]

/-- Setting any other name is the same before and after the known ones are left out. -/
theorem beyond_set_of_notMem {known : Record β} {name : String} (outside : name ∉ names known)
    (record : Record α) (value : α) :
    beyond known (set record name value) = set (beyond known record) name value := by
  have shown : has known name = false := has_eq_false_iff.mpr outside
  induction record with
  | nil => simp [set, beyond, shown]
  | cons head rest ih =>
    obtain ⟨key, held⟩ := head
    simp only [beyond, set, List.filter_cons] at ih ⊢
    by_cases same : key = name
    · subst key
      simp [shown, set]
    · rw [if_neg same]
      simp only [List.filter_cons, ih]
      cases has known key <;> simp [set, same]

theorem mem_names_beyond {known : Record β} {record : Record α} {name : String} :
    name ∈ names (beyond known record) ↔ name ∈ names record ∧ name ∉ names known := by
  simp only [names, beyond, List.mem_map, List.mem_filter, Bool.not_eq_true', Prod.exists,
    exists_and_right, exists_eq_right, has_eq_false_iff]

theorem lookup_map {κ : Type} [BEq κ] (change : α → β) (entries : List (κ × α)) (key : κ) :
    (entries.map fun (other, value) => (other, change value)).lookup key = (entries.lookup key).map change := by
  induction entries with
  | nil => rfl
  | cons head rest ih =>
    obtain ⟨other, value⟩ := head
    simp only [List.map_cons, List.lookup_cons, ih]
    split <;> rfl

theorem find?_map (change : α → β) (record : Record α) (name : String) :
    find? (record.map fun (key, value) => (key, change value)) name = (find? record name).map change :=
  lookup_map change record name

theorem has_map (change : α → β) (record : Record α) (name : String) :
    has (record.map fun (key, value) => (key, change value)) name = has record name := by
  rw [has, find?_map, Option.isSome_map]
  rfl

theorem set_map (change : α → β) (record : Record α) (name : String) (value : α) :
    set (record.map fun (key, value) => (key, change value)) name (change value) =
      (set record name value).map fun (key, value) => (key, change value) := by
  induction record with
  | nil => rfl
  | cons head rest ih =>
    obtain ⟨key, held⟩ := head
    simp only [List.map_cons, set]
    split
    · rfl
    · rw [ih, List.map_cons]

theorem ofList_map (change : α → β) (entries : List (String × α)) :
    ofList (entries.map fun (key, value) => (key, change value)) =
      (ofList entries).map fun (key, value) => (key, change value) := by
  induction entries using List.reverseRecOn with
  | nil => rfl
  | append_singleton entries entry ih =>
    obtain ⟨name, value⟩ := entry
    rw [List.map_append, List.map_singleton, ofList_concat, ofList_concat, ih, set_map]

end Schemata.Record
