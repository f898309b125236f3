/-
# Records that are read back

Every record of an analysis is read back from what is written for it. What is
read is again such a record, so a text in any of the forms that the reader takes
can be written anew without changing what it stands for.

The numbers of a record have as many bits as their fields have, and a table of
advice is ordered by its keys: these are the records there are, and reading gives
no others.
-/

import Mathlib.Data.List.Nodup
import Deadwood.Json.Record
import Deadwood.Proofs.Json.Written

namespace Deadwood

namespace Json

/-- What is written for something is exact, and reading gives it back. -/
structure RoundTrips {α : Type} (toJson : α → Json) (ofJson? : Json → Option α) (own : α) :
    Prop where
  exact : Exact (toJson own)
  read : ofJson? (toJson own) = some own

section Parts

variable {α : Type} {toJson : α → Json} {ofJson? : Json → Option α}

theorem roundTrips_string (text : String) : RoundTrips .string text? text :=
  ⟨.string text, rfl⟩

theorem roundTrips_natural {limit n : Nat} (hlimit : limit ≤ maxLong) (hn : n ≤ limit) :
    RoundTrips (fun n : Nat => (n : Json)) (natural? limit) n := by
  refine ⟨.integer (by omega) ?_, ?_⟩
  · simp only [maxLong] at hlimit
    omega
  · change (if n ≤ limit then some n else none) = some n
    rw [if_pos hn]

theorem RoundTrips.list {owns : List α} (howns : ∀ own ∈ owns, RoundTrips toJson ofJson? own) :
    RoundTrips (fun owns => .array (owns.map toJson)) (list? ofJson?) owns := by
  constructor
  · refine .array fun element helement => ?_
    obtain ⟨own, hown, rfl⟩ := List.mem_map.mp helement
    exact (howns own hown).exact
  · change (owns.map toJson).mapM ofJson? = some owns
    induction owns with
    | nil => rfl
    | cons own owns ih =>
      rw [List.map_cons, List.mapM_cons, (howns own List.mem_cons_self).read,
        ih fun other hother => howns other (List.mem_cons_of_mem _ hother)]
      rfl

theorem RoundTrips.option {own : Option α} (hnull : ∀ value, toJson value ≠ .null)
    (hown : ∀ value ∈ own, RoundTrips toJson ofJson? value) :
    RoundTrips (ofOption toJson) (option? ofJson?) own := by
  cases own with
  | none => exact ⟨.null, rfl⟩
  | some value =>
    refine ⟨(hown value rfl).exact, ?_⟩
    rw [ofOption, option?, (hown value rfl).read]
    · rfl
    · exact hnull value

/-- Of members with different keys, the one with a key is found. -/
theorem find?_key {members : List (String × Json)} (hnodup : (members.map (·.1)).Nodup)
    {member : String × Json} (hmember : member ∈ members) :
    members.find? (·.1 == member.1) = some member := by
  induction members with
  | nil => simp at hmember
  | cons first members ih =>
    rw [List.map_cons, List.nodup_cons] at hnodup
    rcases List.mem_cons.mp hmember with rfl | hmember
    · simp
    · have hne : first.1 ≠ member.1 := fun h => hnodup.1 (h ▸ List.mem_map_of_mem hmember)
      rw [List.find?_cons_of_neg (by simpa using hne), ih hnodup.2 hmember]

/-- The fields of a record that is written in order are found in order. -/
theorem fields?_object {members : List (String × Json)} {names : List String} {least : Nat}
    (hnames : members.map (·.1) = names) (hnodup : names.Nodup) :
    fields? names least (.object members) = some (members.map (some ·.2)) := by
  have honce (name : String) : (members.filter (·.1 == name)).length ≤ 1 := by
    rw [← List.countP_eq_length_filter]
    have hcount := List.nodup_iff_count_le_one.mp hnodup name
    rwa [← hnames, List.count, List.countP_map] at hcount
  rw [fields?, if_pos (by simp [honce]), ← hnames, List.map_map]
  refine congrArg some (List.map_congr_left fun member hmember => ?_)
  simp [find?_key (hnames ▸ hnodup) hmember]

/-- What holds of all that can be read from an element holds of what is read from
an array. -/
theorem forall_of_list? {good : α → Prop}
    (hgood : ∀ value own, ofJson? value = some own → good own) {value : Json} {owns : List α}
    (hlist : list? ofJson? value = some owns) : ∀ own ∈ owns, good own := by
  obtain ⟨elements, -, hmap⟩ := Option.bind_eq_some_iff.mp hlist
  clear hlist
  induction elements generalizing owns with
  | nil =>
    cases hmap
    simp
  | cons element elements ih =>
    simp only [List.mapM_cons, Option.pure_def, Option.bind_eq_bind, Option.bind_eq_some_iff,
      Option.some.injEq] at hmap
    obtain ⟨own, hown, others, hothers, rfl⟩ := hmap
    exact List.forall_mem_cons.mpr ⟨hgood element own hown, ih hothers⟩

theorem le_of_natural? {limit n : Nat} {value : Json} (hvalue : natural? limit value = some n) :
    n ≤ limit := by
  unfold natural? at hvalue
  split at hvalue
  · split at hvalue
    · cases hvalue
      assumption
    · cases hvalue
  · cases hvalue

/-! ### Tables -/

/-- A table is ordered by its keys, and none is there twice. -/
def Ordered (table : List (String × α)) : Prop :=
  table.Pairwise (·.1 < ·.1)

theorem insertByKey_of_forall_lt {table : List (String × α)} {key : String} {value : α}
    (hlast : ∀ entry ∈ table, entry.1 < key) :
    insertByKey key value table = table ++ [(key, value)] := by
  induction table with
  | nil => rfl
  | cons entry table ih =>
    have hlt : entry.1 < key := hlast entry List.mem_cons_self
    rw [insertByKey, if_neg (String.lt_asymm hlt), if_neg fun h => String.lt_irrefl _ (h ▸ hlt),
      ih fun other hother => hlast other (List.mem_cons_of_mem _ hother), List.cons_append]

theorem eq_or_mem_of_mem_insertByKey {table : List (String × α)} {key : String} {value : α}
    {entry : String × α} (hentry : entry ∈ insertByKey key value table) :
    entry.1 = key ∨ entry ∈ table := by
  induction table with
  | nil => exact .inl (by rw [List.mem_singleton.mp hentry])
  | cons first table ih =>
    rw [insertByKey] at hentry
    split at hentry
    · exact (List.mem_cons.mp hentry).imp_left (congrArg Prod.fst)
    · split at hentry
      · exact (List.mem_cons.mp hentry).imp (congrArg Prod.fst) (List.mem_cons_of_mem _)
      · rcases List.mem_cons.mp hentry with rfl | hentry
        · exact .inr List.mem_cons_self
        · exact (ih hentry).imp_right (List.mem_cons_of_mem _)

theorem Ordered.insertByKey {table : List (String × α)} (hordered : Ordered table) (key : String)
    (value : α) : Ordered (insertByKey key value table) := by
  induction table with
  | nil => exact List.pairwise_singleton _ _
  | cons first table ih =>
    have hcons := List.pairwise_cons.mp hordered
    rw [Json.insertByKey]
    split
    · rename_i hlt
      refine List.pairwise_cons.mpr ⟨fun entry hentry => ?_, hordered⟩
      rcases List.mem_cons.mp hentry with rfl | hentry
      · exact hlt
      · exact String.lt_trans hlt (hcons.1 entry hentry)
    · rename_i hlt
      split
      · rename_i heq
        exact List.pairwise_cons.mpr ⟨fun entry hentry => heq ▸ hcons.1 entry hentry, hcons.2⟩
      · rename_i hne
        refine List.pairwise_cons.mpr ⟨fun entry hentry => ?_, ih hcons.2⟩
        rcases eq_or_mem_of_mem_insertByKey hentry with heq | hmem
        · rw [heq]
          exact Decidable.byContradiction fun hge =>
            hne (String.le_antisymm (String.not_lt.mp hge) (String.not_lt.mp hlt))
        · exact hcons.1 entry hmem

/-- What is read from an object is ordered, whatever the order of its members. -/
theorem ordered_of_table? {value : Json} {table : List (String × α)}
    (htable : table? ofJson? value = some table) : Ordered table := by
  cases value with
  | object members =>
    rw [table?] at htable
    -- The members read so far are ordered.
    generalize hbefore : ([] : List (String × α)) = before at htable
    have hordered : Ordered before := hbefore ▸ List.Pairwise.nil
    clear hbefore
    induction members generalizing before with
    | nil =>
      cases htable
      exact hordered
    | cons member members ih =>
      rw [List.foldlM_cons, Option.bind_eq_bind, Option.bind_eq_some_iff] at htable
      obtain ⟨after, hstep, hrest⟩ := htable
      obtain ⟨own, -, rfl⟩ := Option.map_eq_some_iff.mp hstep
      exact ih _ hrest (hordered.insertByKey _ _)
  | _ => cases htable

theorem RoundTrips.table {table : List (String × α)} (hordered : Ordered table)
    (howns : ∀ entry ∈ table, RoundTrips toJson ofJson? entry.2) :
    RoundTrips (fun table => .object (table.map fun (key, own) => (key, toJson own)))
      (table? ofJson?) table := by
  constructor
  · refine .object fun member hmember => ?_
    obtain ⟨entry, hentry, rfl⟩ := List.mem_map.mp hmember
    exact (howns entry hentry).exact
  · -- Each member comes behind those read before it.
    have hread (before rest : List (String × α)) (hordered : Ordered (before ++ rest))
        (howns : ∀ entry ∈ rest, RoundTrips toJson ofJson? entry.2) :
        (rest.map fun entry => (entry.1, toJson entry.2)).foldlM (fun table member =>
          (ofJson? member.2).map fun own => insertByKey member.1 own table) before =
        some (before ++ rest) := by
      induction rest generalizing before with
      | nil => simp
      | cons entry rest ih =>
        obtain ⟨key, own⟩ := entry
        have hlast : ∀ other ∈ before, other.1 < key := fun other hother =>
          (List.pairwise_append.mp hordered).2.2 other hother _ List.mem_cons_self
        have hown : ofJson? (toJson own) = some own := (howns _ List.mem_cons_self).read
        have happend : before ++ (key, own) :: rest = before ++ [(key, own)] ++ rest := by simp
        rw [happend] at hordered ⊢
        rw [← ih _ hordered fun other hother => howns other (List.mem_cons_of_mem _ hother)]
        simp only [List.map_cons, List.foldlM_cons, hown, Option.map_some,
          insertByKey_of_forall_lt hlast]
        rfl
    exact hread [] table hordered howns

end Parts

end Json

open Json

/-! ## Findings -/

theorem Severity.roundTrips (severity : Severity) :
    RoundTrips Severity.toJson Severity.ofJson? severity := by
  cases severity
  · exact ⟨.integer (by decide) (by decide), rfl⟩
  · exact ⟨.integer (by decide) (by decide), rfl⟩

theorem Diagnostic.roundTrips {diagnostic : Diagnostic} (hline : diagnostic.line ≤ maxWord) :
    RoundTrips Diagnostic.toJson Diagnostic.ofJson? diagnostic := by
  have hline := roundTrips_natural (by decide) hline
  have hseverity := diagnostic.severity.roundTrips
  constructor
  · apply Exact.object
    simp [Exact.string, hline.exact, hseverity.exact]
  · rw [Diagnostic.ofJson?, Diagnostic.toJson, fields?_object]
    · simp [required, text?, hline.read, hseverity.read]
    · rfl
    · decide

theorem Diagnostic.line_le_of_ofJson? {value : Json} {diagnostic : Diagnostic}
    (hread : Diagnostic.ofJson? value = some diagnostic) : diagnostic.line ≤ maxWord := by
  unfold Diagnostic.ofJson? at hread
  split at hread
  · simp only [Option.pure_def, Option.bind_eq_bind, Option.bind_eq_some_iff,
      Option.some.injEq] at hread
    obtain ⟨_, -, line, hline, _, -, _, -, _, -, _, -, rfl⟩ := hread
    obtain ⟨field, -, hfield⟩ := Option.bind_eq_some_iff.mp hline
    exact le_of_natural? hfield
  · cases hread

theorem UnusedFunction.roundTrips (function : UnusedFunction) :
    RoundTrips UnusedFunction.toJson UnusedFunction.ofJson? function := by
  constructor
  · apply Exact.object
    simp [Exact.string]
  · rw [UnusedFunction.ofJson?, UnusedFunction.toJson, fields?_object]
    · rfl
    · rfl
    · decide

theorem FileFault.roundTrips (fault : FileFault) :
    RoundTrips FileFault.toJson FileFault.ofJson? fault := by
  constructor
  · apply Exact.object
    simp [Exact.string]
  · rw [FileFault.ofJson?, FileFault.toJson, fields?_object]
    · rfl
    · rfl
    · decide

/-- The findings there are: lines have 32 bits, and advice is ordered by element. -/
structure Findings.WellFormed (findings : Findings) : Prop where
  errors : ∀ diagnostic ∈ findings.errors, diagnostic.line ≤ maxWord
  warnings : ∀ diagnostic ∈ findings.warnings, diagnostic.line ≤ maxWord
  advice : Ordered findings.tagAdvice

theorem Findings.roundTrips {findings : Findings} (hfindings : findings.WellFormed) :
    RoundTrips Findings.toJson Findings.ofJson? findings := by
  have hclasses := RoundTrips.list fun class_ (_ : class_ ∈ findings.unusedClasses) =>
    roundTrips_string class_
  have htags := RoundTrips.list fun tag (_ : tag ∈ findings.deprecatedTags) =>
    roundTrips_string tag
  have hfunctions := RoundTrips.list fun function (_ : function ∈ findings.unusedFunctions) =>
    function.roundTrips
  have herrors := RoundTrips.list fun diagnostic hmem =>
    Diagnostic.roundTrips (hfindings.errors diagnostic hmem)
  have hwarnings := RoundTrips.list fun diagnostic hmem =>
    Diagnostic.roundTrips (hfindings.warnings diagnostic hmem)
  have hnull (text : String) : Json.string text ≠ .null := nofun
  have hadvice := RoundTrips.table hfindings.advice fun entry _ =>
    RoundTrips.option hnull fun text (_ : text ∈ entry.2) => roundTrips_string text
  have hskipped := RoundTrips.list fun fault (_ : fault ∈ findings.skipped) => fault.roundTrips
  constructor
  · apply Exact.object
    simp [Json.strings, hclasses.exact, htags.exact, hfunctions.exact, herrors.exact,
      hwarnings.exact, hadvice.exact, hskipped.exact]
  · rw [Findings.ofJson?, Findings.toJson, fields?_object]
    · simp [required, defaulted, Json.strings, hclasses.read, htags.read, hfunctions.read,
        herrors.read, hwarnings.read, hadvice.read, hskipped.read]
    · rfl
    · decide

/-- Reading gives findings as they are. -/
theorem Findings.wellFormed_of_ofJson? {value : Json} {findings : Findings}
    (hread : Findings.ofJson? value = some findings) : findings.WellFormed := by
  unfold Findings.ofJson? at hread
  split at hread
  · simp only [Option.pure_def, Option.bind_eq_bind, Option.bind_eq_some_iff,
      Option.some.injEq] at hread
    obtain ⟨_, -, _, -, _, -, errors, herrors, warnings, hwarnings, advice, hadvice, _, -, rfl⟩ :=
      hread
    obtain ⟨_, -, herrors⟩ := Option.bind_eq_some_iff.mp herrors
    obtain ⟨_, -, hwarnings⟩ := Option.bind_eq_some_iff.mp hwarnings
    obtain ⟨_, -, hadvice⟩ := Option.bind_eq_some_iff.mp hadvice
    exact ⟨forall_of_list? (fun _ _ => Diagnostic.line_le_of_ofJson?) herrors,
      forall_of_list? (fun _ _ => Diagnostic.line_le_of_ofJson?) hwarnings,
      ordered_of_table? hadvice⟩
  · cases hread

/-! ## Snapshots and manifests -/

/-- The snapshots there are: generations have 64 bits. -/
structure Snapshot.WellFormed (snapshot : Snapshot) : Prop where
  generation : snapshot.generation ≤ maxLong
  findings : snapshot.findings.WellFormed

theorem Snapshot.roundTrips {snapshot : Snapshot} (hsnapshot : snapshot.WellFormed) :
    RoundTrips Snapshot.toJson Snapshot.ofJson? snapshot := by
  have hgeneration := roundTrips_natural le_rfl hsnapshot.generation
  have hfindings := Findings.roundTrips hsnapshot.findings
  constructor
  · apply Exact.object
    simp [Exact.string, hgeneration.exact, hfindings.exact]
  · rw [Snapshot.ofJson?, Snapshot.toJson, fields?_object]
    · simp [required, defaulted, text?, hgeneration.read, hfindings.read]
    · rfl
    · decide

/-- Reading gives snapshots as they are. -/
theorem Snapshot.wellFormed_of_ofJson? {value : Json} {snapshot : Snapshot}
    (hread : Snapshot.ofJson? value = some snapshot) : snapshot.WellFormed := by
  unfold Snapshot.ofJson? at hread
  split at hread
  · simp only [Option.pure_def, Option.bind_eq_bind, Option.bind_eq_some_iff,
      Option.some.injEq] at hread
    obtain ⟨generation, hgeneration, _, -, findings, hfindings, rfl⟩ := hread
    obtain ⟨_, -, hgeneration⟩ := Option.bind_eq_some_iff.mp hgeneration
    obtain ⟨_, -, hfindings⟩ := Option.bind_eq_some_iff.mp hfindings
    exact ⟨le_of_natural? hgeneration, Findings.wellFormed_of_ofJson? hfindings⟩
  · cases hread

theorem PatchKind.roundTrips (kind : PatchKind) :
    RoundTrips (fun kind : PatchKind => .string kind.text) PatchKind.ofJson? kind := by
  refine ⟨.string _, ?_⟩
  cases kind <;> decide

theorem Suggestion.roundTrips (suggestion : Suggestion) :
    RoundTrips Suggestion.toJson Suggestion.ofJson? suggestion := by
  have hkind := suggestion.kind.roundTrips
  constructor
  · apply Exact.object
    simp [Exact.string]
  · rw [Suggestion.ofJson?, Suggestion.toJson, fields?_object]
    · simp [required, text?, hkind.read]
    · rfl
    · decide

theorem Manifest.roundTrips (manifest : Manifest) :
    RoundTrips Manifest.toJson Manifest.ofJson? manifest := by
  have hsuggestions := RoundTrips.list fun suggestion (_ : suggestion ∈ manifest.suggestions) =>
    suggestion.roundTrips
  constructor
  · apply Exact.object
    simp [Exact.string, hsuggestions.exact]
  · rw [Manifest.ofJson?, Manifest.toJson, fields?_object]
    · simp [required, text?, hsuggestions.read]
    · rfl
    · decide

end Deadwood
