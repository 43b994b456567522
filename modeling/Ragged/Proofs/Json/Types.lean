import Ragged.Json.Types
import Ragged.Proofs.Json.Records

/-!
# Options, configurations and pointers are read back

The forms of options, configurations, layouts and pointers read what they write. Options and configurations are read
from any part of their fields, and have their default values in the others.
-/

namespace Ragged

open Json Form

/-! ## Choices -/

def Trim.tokens : Trim → List Token
  | .keep => [quoted "keep"]
  | .nul => [quoted "nul"]

theorem Trim.form_spelled : Trim.form.Spelled Trim.tokens where
  json t := by
    cases t <;> exact .scalar (.string (isString_quoted (by decide)))
  write_eq t := by
    cases t <;> rfl
  read_eq {t s rest} hs hrest := by
    cases t with
    | keep => exact readChoice_plain (by decide) rfl hs
    | nul => exact readChoice_plain (by decide) rfl hs

def ChunkFilter.tokens : ChunkFilter → List Token
  | .shuffle => [quoted "Shuffle"]
  | .deflate level => choiceTokens "Deflate" (byteTokens level)

theorem ChunkFilter.form_spelled : ChunkFilter.form.Spelled ChunkFilter.tokens where
  json f := by
    cases f with
    | shuffle => exact .scalar (.string (isString_quoted (by decide)))
    | deflate level => exact json_choiceTokens (by decide) (byte_spelled.json level)
  write_eq f := by
    cases f with
    | shuffle => rfl
    | deflate level => rw [tokens, flatten_choiceTokens, ← byte_spelled.write_eq, ChunkFilter.form]
  read_eq {f s rest} hs hrest := by
    cases f with
    | shuffle => exact readChoice_plain (by decide) rfl hs
    | deflate level =>
      refine readChoice_carrying (by decide) rfl (fun hs hrest => ?_) hs
      rw [byte_spelled.read_eq hs hrest]
      rfl

def Layout.chunkedFields : List (SpelledField (List UInt64 × List ChunkFilter)) :=
  [spelledField "chunk_shape" (by decide) (list_spelled word_spelled) Prod.fst fun v p => (v, p.2),
   spelledField "filters" (by decide) (list_spelled ChunkFilter.form_spelled) Prod.snd fun v p => (p.1, v)]

theorem Layout.chunkedForm_spelled :
    Layout.chunkedForm.Spelled fun p => objectTokens (members Layout.chunkedFields p) :=
  @record_spelled _ Layout.chunkedFields (by decide) false ([], []) fun _ => rfl

def Layout.tokens : Layout → List Token
  | .contiguous => [quoted "Contiguous"]
  | .chunked chunk filters => choiceTokens "Chunked" (objectTokens (members chunkedFields (chunk, filters)))

theorem Layout.form_spelled : Layout.form.Spelled Layout.tokens where
  json l := by
    cases l with
    | contiguous => exact .scalar (.string (isString_quoted (by decide)))
    | chunked chunk filters => exact json_choiceTokens (by decide) (chunkedForm_spelled.json (chunk, filters))
  write_eq l := by
    cases l with
    | contiguous => rfl
    | chunked chunk filters => rw [tokens, flatten_choiceTokens, ← chunkedForm_spelled.write_eq, Layout.form]
  read_eq {l s rest} hs hrest := by
    cases l with
    | contiguous => exact readChoice_plain (by decide) rfl hs
    | chunked chunk filters =>
      refine readChoice_carrying (by decide) rfl (fun hs hrest => ?_) hs
      rw [chunkedForm_spelled.read_eq hs hrest]
      rfl

/-! ## Records -/

def Pointer.fields : List (SpelledField Pointer) :=
  [spelledField "offset" (by decide) word_spelled offset fun v p => { p with offset := v },
   spelledField "length" (by decide) word_spelled length fun v p => { p with length := v }]

theorem Pointer.form_spelled : Pointer.form.Spelled fun p => objectTokens (members Pointer.fields p) :=
  @record_spelled _ Pointer.fields (by decide) false default fun _ => rfl

def DatasetConfig.fields : List (SpelledField DatasetConfig) :=
  [spelledField "dimensions" (by decide) (list_spelled word_spelled) dimensions fun v c => { c with dimensions := v },
   spelledField "chunk_shape" (by decide) (list_spelled word_spelled) chunkShape fun v c => { c with chunkShape := v },
   spelledField "compression_level" (by decide) byte_spelled compressionLevel
     fun v c => { c with compressionLevel := v },
   spelledField "scalar" (by decide) bool_spelled scalar fun v c => { c with scalar := v }]

theorem DatasetConfig.form_spelled :
    DatasetConfig.form.Spelled fun c => objectTokens (members DatasetConfig.fields c) :=
  @record_spelled _ DatasetConfig.fields (by decide) true {} fun _ => rfl

def WriteOptions.fields : List (SpelledField WriteOptions) :=
  [spelledField "element_budget" (by decide) word_spelled elementBudget fun v o => { o with elementBudget := v },
   spelledField "flush_threshold" (by decide) word_spelled flushThreshold fun v o => { o with flushThreshold := v },
   spelledField "chunk_shape" (by decide) (list_spelled word_spelled) chunkShape fun v o => { o with chunkShape := v },
   spelledField "compression_level" (by decide) byte_spelled compressionLevel
     fun v o => { o with compressionLevel := v },
   spelledField "heap_chunk_len" (by decide) (option_spelled word_spelled fun _ _ _ => wordTokens_head) heapChunkLen
     fun v o => { o with heapChunkLen := v }]

theorem WriteOptions.form_spelled :
    WriteOptions.form.Spelled fun o => objectTokens (members WriteOptions.fields o) :=
  @record_spelled _ WriteOptions.fields (by decide) true {} fun _ => rfl

def ReadOptions.fields : List (SpelledField ReadOptions) :=
  [spelledField "element_budget" (by decide) word_spelled elementBudget fun v o => { o with elementBudget := v },
   spelledField "trim" (by decide) Trim.form_spelled trim fun v o => { o with trim := v }]

theorem ReadOptions.form_spelled :
    ReadOptions.form.Spelled fun o => objectTokens (members ReadOptions.fields o) :=
  @record_spelled _ ReadOptions.fields (by decide) true {} fun _ => rfl

/-! ## Defaults -/

attribute [ext] WriteOptions ReadOptions DatasetConfig

section
variable (names : List String)

/-- The default with the fields of these names replaced. -/
def WriteOptions.taking (o : WriteOptions) : WriteOptions where
  elementBudget := if "element_budget" ∈ names then o.elementBudget else ({} : WriteOptions).elementBudget
  flushThreshold := if "flush_threshold" ∈ names then o.flushThreshold else ({} : WriteOptions).flushThreshold
  chunkShape := if "chunk_shape" ∈ names then o.chunkShape else ({} : WriteOptions).chunkShape
  compressionLevel := if "compression_level" ∈ names then o.compressionLevel else ({} : WriteOptions).compressionLevel
  heapChunkLen := if "heap_chunk_len" ∈ names then o.heapChunkLen else ({} : WriteOptions).heapChunkLen

def ReadOptions.taking (o : ReadOptions) : ReadOptions where
  elementBudget := if "element_budget" ∈ names then o.elementBudget else ({} : ReadOptions).elementBudget
  trim := if "trim" ∈ names then o.trim else ({} : ReadOptions).trim

def DatasetConfig.taking (c : DatasetConfig) : DatasetConfig where
  dimensions := if "dimensions" ∈ names then c.dimensions else ({} : DatasetConfig).dimensions
  chunkShape := if "chunk_shape" ∈ names then c.chunkShape else ({} : DatasetConfig).chunkShape
  compressionLevel :=
    if "compression_level" ∈ names then c.compressionLevel else ({} : DatasetConfig).compressionLevel
  scalar := if "scalar" ∈ names then c.scalar else ({} : DatasetConfig).scalar

end

section
variable (ms : List (String × List Token))

theorem WriteOptions.foldl_takeOver (o : WriteOptions) :
    ms.foldl (takeOver WriteOptions.fields o) {} = o.taking (ms.map Prod.fst) := by
  apply WriteOptions.ext
  · exact get_foldl_takeOver elementBudget (by decide) (by simp [fields]) ms {}
  · exact get_foldl_takeOver flushThreshold (by decide) (by simp [fields]) ms {}
  · exact get_foldl_takeOver chunkShape (by decide) (by simp [fields]) ms {}
  · exact get_foldl_takeOver compressionLevel (by decide) (by simp [fields]) ms {}
  · exact get_foldl_takeOver heapChunkLen (by decide) (by simp [fields]) ms {}

theorem ReadOptions.foldl_takeOver (o : ReadOptions) :
    ms.foldl (takeOver ReadOptions.fields o) {} = o.taking (ms.map Prod.fst) := by
  apply ReadOptions.ext
  · exact get_foldl_takeOver elementBudget (by decide) (by simp [fields]) ms {}
  · exact get_foldl_takeOver trim (by decide) (by simp [fields]) ms {}

theorem DatasetConfig.foldl_takeOver (c : DatasetConfig) :
    ms.foldl (takeOver DatasetConfig.fields c) {} = c.taking (ms.map Prod.fst) := by
  apply DatasetConfig.ext
  · exact get_foldl_takeOver dimensions (by decide) (by simp [fields]) ms {}
  · exact get_foldl_takeOver chunkShape (by decide) (by simp [fields]) ms {}
  · exact get_foldl_takeOver compressionLevel (by decide) (by simp [fields]) ms {}
  · exact get_foldl_takeOver scalar (by decide) (by simp [fields]) ms {}

variable {ms} {text : String} (ht : IsText (objectTokens ms) text) (words : JsonWords)
include ht

theorem WriteOptions.parse_taking {o : WriteOptions} (h : Mixed (members WriteOptions.fields o) ms) :
    WriteOptions.form.parse text words = .ok (o.taking (ms.map Prod.fst)) := by
  rw [← WriteOptions.foldl_takeOver]
  exact parse_mixed (by decide) h ht {} words

theorem ReadOptions.parse_taking {o : ReadOptions} (h : Mixed (members ReadOptions.fields o) ms) :
    ReadOptions.form.parse text words = .ok (o.taking (ms.map Prod.fst)) := by
  rw [← ReadOptions.foldl_takeOver]
  exact parse_mixed (by decide) h ht {} words

theorem DatasetConfig.parse_taking {c : DatasetConfig} (h : Mixed (members DatasetConfig.fields c) ms) :
    DatasetConfig.form.parse text words = .ok (c.taking (ms.map Prod.fst)) := by
  rw [← DatasetConfig.foldl_takeOver]
  exact parse_mixed (by decide) h ht {} words

end

/-! ## Options from texts -/

theorem WriteOptions.ofJson_eq_ok {text : String} {words : JsonWords} {o : WriteOptions}
    (h : WriteOptions.form.parse text words = .ok o) : WriteOptions.ofJson text words = .ok o := by
  rw [WriteOptions.ofJson, h]

theorem ReadOptions.ofJson_eq_ok {text : String} {words : JsonWords} {o : ReadOptions}
    (h : ReadOptions.form.parse text words = .ok o) : ReadOptions.ofJson text words = .ok o := by
  rw [ReadOptions.ofJson, h]

/-- Every value is read back from the text that is written for it. From a text that has some of the fields of a value,
in any order and spacing and among others, options and configurations are read as their default with these fields
replaced. -/
theorem forms_read_back (words : JsonWords) :
    ((∀ o : WriteOptions, WriteOptions.ofJson (WriteOptions.form.text o) words = .ok o) ∧
      (∀ o : ReadOptions, ReadOptions.ofJson (ReadOptions.form.text o) words = .ok o) ∧
      (∀ c : DatasetConfig, DatasetConfig.form.parse (DatasetConfig.form.text c) words = .ok c) ∧
      (∀ l : Layout, Layout.form.parse (Layout.form.text l) words = .ok l) ∧
      (∀ f : ChunkFilter, ChunkFilter.form.parse (ChunkFilter.form.text f) words = .ok f) ∧
      (∀ t : Trim, Trim.form.parse (Trim.form.text t) words = .ok t) ∧
      (∀ p : Pointer, Pointer.form.parse (Pointer.form.text p) words = .ok p)) ∧
    ∀ (ms : List (String × List Token)) (text : String), IsText (objectTokens ms) text →
      (∀ o : WriteOptions, Mixed (members WriteOptions.fields o) ms →
        WriteOptions.ofJson text words = .ok (o.taking (ms.map Prod.fst))) ∧
      (∀ o : ReadOptions, Mixed (members ReadOptions.fields o) ms →
        ReadOptions.ofJson text words = .ok (o.taking (ms.map Prod.fst))) ∧
      (∀ c : DatasetConfig, Mixed (members DatasetConfig.fields c) ms →
        DatasetConfig.form.parse text words = .ok (c.taking (ms.map Prod.fst))) := by
  refine ⟨⟨fun o => ?_, fun o => ?_, ?_, ?_, ?_, ?_, ?_⟩, fun ms text ht => ⟨fun o h => ?_, fun o h => ?_, fun c h => ?_⟩⟩
  · exact WriteOptions.ofJson_eq_ok (WriteOptions.form_spelled.parse_text o words)
  · exact ReadOptions.ofJson_eq_ok (ReadOptions.form_spelled.parse_text o words)
  · exact fun c => DatasetConfig.form_spelled.parse_text c words
  · exact fun l => Layout.form_spelled.parse_text l words
  · exact fun f => ChunkFilter.form_spelled.parse_text f words
  · exact fun t => Trim.form_spelled.parse_text t words
  · exact fun p => Pointer.form_spelled.parse_text p words
  · exact WriteOptions.ofJson_eq_ok (WriteOptions.parse_taking ht words h)
  · exact ReadOptions.ofJson_eq_ok (ReadOptions.parse_taking ht words h)
  · exact DatasetConfig.parse_taking ht words h

/-- Each type takes its own fields from one text, and passes over the others. -/
theorem forms_read_back_shared_text :
    WriteOptions.ofJson " \x7b\"later\":[\x7b\x7d],\"element_budget\":7,\"chunk_shape\":[2,3]\x7d\n" =
        .ok { elementBudget := 7, chunkShape := [2, 3] } ∧
      ReadOptions.ofJson " \x7b\"later\":[\x7b\x7d],\"element_budget\":7,\"chunk_shape\":[2,3]\x7d\n" =
        .ok { elementBudget := 7 } ∧
      DatasetConfig.form.parse " \x7b\"later\":[\x7b\x7d],\"element_budget\":7,\"chunk_shape\":[2,3]\x7d\n" =
        .ok { chunkShape := [2, 3] } := by
  have hlater : IsValue (bracketed .list [bracketed .object []]) :=
    .list (List.forall_mem_singleton.mpr (@IsValue.object [] nofun nofun))
  have hbudget := word_spelled.json 7
  have hshape := (list_spelled word_spelled).json [2, 3]
  have hobject := @json_objectTokens [("later", _), ("element_budget", _), ("chunk_shape", _)] (by decide)
    (List.forall_mem_cons.mpr ⟨hlater, List.forall_mem_cons.mpr ⟨hbudget, List.forall_mem_singleton.mpr hshape⟩⟩)
  have htext : IsText (objectTokens [("later", bracketed .list [bracketed .object []]),
      ("element_budget", wordTokens 7), ("chunk_shape", listTokens wordTokens [2, 3])])
      " \x7b\"later\":[\x7b\x7d],\"element_budget\":7,\"chunk_shape\":[2,3]\x7d\n" := by
    refine ⟨_, ['\n'], ?_, @Spaced.cons _ _ [' '] _ (List.forall_mem_singleton.mpr rfl) (hobject.ne_nil _ (.head _))
      (Spaced.flatten fun t ht => hobject.ne_nil t (.tail _ ht)), List.forall_mem_singleton.mpr rfl⟩
    decide
  obtain ⟨hwrite, hread, hconfig⟩ := (forms_read_back fun _ _ => "").2 _ _ htext
  refine ⟨?_, ?_, ?_⟩
  · refine hwrite { elementBudget := 7, chunkShape := [2, 3] } ⟨?_, by decide⟩
    refine List.forall_mem_cons.mpr ⟨.other (by decide) (by decide) hlater, List.forall_mem_cons.mpr ⟨?_, ?_⟩⟩
    · exact .field (.head _)
    · exact List.forall_mem_singleton.mpr (.field (.tail _ (.tail _ (.head _))))
  · refine hread { elementBudget := 7 } ⟨?_, by decide⟩
    refine List.forall_mem_cons.mpr ⟨.other (by decide) (by decide) hlater, List.forall_mem_cons.mpr ⟨?_, ?_⟩⟩
    · exact .field (.head _)
    · exact List.forall_mem_singleton.mpr (.other (by decide) (by decide) hshape)
  · refine hconfig { chunkShape := [2, 3] } ⟨?_, by decide⟩
    refine List.forall_mem_cons.mpr ⟨.other (by decide) (by decide) hlater, List.forall_mem_cons.mpr ⟨?_, ?_⟩⟩
    · exact .other (by decide) (by decide) hbudget
    · exact List.forall_mem_singleton.mpr (.field (.tail _ (.head _)))

end Ragged
