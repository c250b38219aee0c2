import LoopHoist.Motion.Sink
import LoopHoist.Proofs.Motion.Modules
import LoopHoist.Text.Json

/-!
# Reports read back

A report is written piece by piece, but what a sink keeps of it does not depend on where the pieces
end: it is the first bytes of the whole text (`Sink.writeAll_limited`). The text is read back by a
reader of its own (`Counters.ofCsv?`): it cuts the text into lines, each line at its comma, reads
the count as a decimal, and takes the counters by name. Names and counts are plain (`IsPlain`): they
hold neither a comma nor a newline, and each of their characters is one byte.

All names are needed, and a line counts only with its newline; so a report that was cut anywhere,
within a name, a number or at the end of a line, is no report of any counters
(`Counters.ofCsv?_take`).
-/

namespace LoopHoist

variable {n : Nat} {text : String} {cs : List Char} {lines : List (List Char)}

/-! ## Sinks -/

namespace Sink

variable {s : Sink}

/-- The bytes of a text are those of its characters. -/
theorem encode_eq_flatMap (text : String) :
    encode text = text.toList.flatMap String.utf8EncodeChar := by
  rw [encode, ← String.utf8Encode_toList, List.utf8Encode, List.toList_data_toByteArray]

/-- The bytes of joined pieces are those of the pieces. -/
theorem encode_join (pieces : List String) :
    encode (String.join pieces) = pieces.flatMap encode := by
  calc encode (String.join pieces)
      = (pieces.flatMap String.toList).flatMap String.utf8EncodeChar := by
        rw [encode_eq_flatMap, String.toList_join]
    _ = pieces.flatMap fun piece => piece.toList.flatMap String.utf8EncodeChar :=
        List.flatMap_assoc
    _ = pieces.flatMap encode :=
        List.flatMap_congr fun piece _ => (encode_eq_flatMap piece).symm

/-- A text of one-byte characters has one byte for each of them. -/
theorem encode_eq_map (h : ∀ ch ∈ text.toList, ch.utf8Size = 1) :
    encode text = text.toList.map fun ch => ch.val.toUInt8 := by
  rw [encode_eq_flatMap, List.map_eq_flatMap]
  exact List.flatMap_congr fun ch hch => String.utf8EncodeChar_eq_singleton (h ch hch)

/-- Cutting the bytes of a text of one-byte characters cuts the text. -/
theorem take_encode (h : ∀ ch ∈ text.toList, ch.utf8Size = 1) (n : Nat) :
    (encode text).take n = encode (String.ofList (text.toList.take n)) := by
  have htake : ∀ ch ∈ (String.ofList (text.toList.take n)).toList, ch.utf8Size = 1 := by
    rw [String.toList_ofList]
    exact fun ch hch => h ch (List.mem_of_mem_take hch)
  rw [encode_eq_map h, encode_eq_map htake, String.toList_ofList, List.map_take]

/-- A sink with the bytes of a text holds that text. -/
theorem text?_of_bytes (h : s.bytes = encode text) : s.text? = some text := by
  have hbytes : (⟨s.bytes.toArray⟩ : ByteArray) = text.toByteArray := by
    rw [h]
    rfl
  unfold text? String.fromUTF8?
  rw [hbytes, dif_pos text.isValidUTF8]
  rfl

/-- A sink with a limit takes of all pieces together what there is room for, and all fit exactly if
together they do. -/
theorem writeAll_limited (n : Nat) (bytes : List UInt8) (pieces : List (List UInt8)) :
    writeAll { limit := some n, bytes } pieces =
      ({ limit := some n, bytes := bytes ++ pieces.flatten.take (n - bytes.length) },
        decide (pieces.flatten.length ≤ n - bytes.length)) := by
  induction pieces generalizing bytes with
  | nil => simp [writeAll]
  | cons piece rest ih =>
    rw [writeAll, write]
    simp only [List.flatten_cons, List.length_append, List.take_append]
    by_cases hfits : piece.length ≤ n - bytes.length
    · -- The piece is taken as a whole, and the others have the room that it leaves.
      have hrest : piece.length + rest.flatten.length ≤ n - bytes.length ↔
          rest.flatten.length ≤ n - bytes.length - piece.length := by
        omega
      simp only [hfits, decide_true, List.take_of_length_le hfits]
      rw [ih, List.length_append, List.append_assoc, ← Nat.sub_sub, decide_eq_decide.2 hrest]
    · -- It is cut, and nothing of the others is taken.
      have hroom : n - bytes.length - piece.length = 0 := by omega
      have hmore : ¬ piece.length + rest.flatten.length ≤ n - bytes.length := by omega
      simp only [hfits, hmore, hroom, decide_false, List.take_zero, List.append_nil]

/-- A sink without a limit takes all pieces. -/
theorem writeAll_unlimited (bytes : List UInt8) (pieces : List (List UInt8)) :
    writeAll { bytes } pieces = ({ bytes := bytes ++ pieces.flatten }, true) := by
  induction pieces generalizing bytes with
  | nil => simp [writeAll]
  | cons piece rest ih =>
    rw [writeAll, write]
    show writeAll { bytes := bytes ++ piece } rest = _
    rw [ih, List.append_assoc, List.flatten_cons]

end Sink

/-! ## Lines and numbers -/

/-- The text of lines: a newline ends each of them. -/
def unlines (lines : List (List Char)) : List Char := lines.flatMap (· ++ ['\n'])

/-- The lines of a text; nothing if the text goes on after the last newline. -/
def linesOf? (cs : List Char) : Option (List (List Char)) :=
  if (cs.splitOn '\n').getLast? = some [] then some (cs.splitOn '\n').dropLast else none

/-- The text of lines begins with the first line and its newline. -/
theorem unlines_cons (line : List Char) (lines : List (List Char)) :
    unlines (line :: lines) = line ++ '\n' :: unlines lines := by
  rw [unlines, List.flatMap_cons, List.append_assoc, List.singleton_append, unlines]

/-- Cut at its newlines the text of lines falls into these lines, and nothing is left. -/
theorem splitOn_unlines (h : ∀ line ∈ lines, '\n' ∉ line) :
    (unlines lines).splitOn '\n' = lines ++ [[]] := by
  induction lines with
  | nil => rfl
  | cons line rest ih =>
    rw [unlines_cons, List.splitOn_append_cons_self_of_not_mem (h line List.mem_cons_self),
      ih fun l hl => h l (List.mem_cons_of_mem _ hl), List.cons_append]

/-- Joined by newlines, with nothing left, lines make their text. -/
theorem intercalate_newline (lines : List (List Char)) :
    ['\n'].intercalate (lines ++ [[]]) = unlines lines := by
  induction lines with
  | nil => rfl
  | cons line rest ih =>
    have hne : rest ++ [[]] ≠ [] := by simp
    rw [List.cons_append, List.intercalate_cons_of_ne_nil hne, ih, unlines_cons, List.append_assoc,
      List.singleton_append]

/-- Lines are read back from their text. -/
theorem linesOf?_unlines (h : ∀ line ∈ lines, '\n' ∉ line) :
    linesOf? (unlines lines) = some lines := by
  rw [linesOf?, splitOn_unlines h, List.getLast?_concat, if_pos rfl, List.dropLast_concat]

/-- Only the text of some lines is read as these lines. -/
theorem eq_unlines_of_linesOf? (h : linesOf? cs = some lines) : cs = unlines lines := by
  unfold linesOf? at h
  split at h
  case isTrue hlast =>
    have hparts : cs.splitOn '\n' = lines ++ [[]] := by
      rw [← Option.some.inj h]
      exact (List.dropLast_append_getLast? [] hlast).symm
    rw [← intercalate_newline, ← hparts, List.intercalate_splitOn]
  case isFalse => cases h

/-- The text of lines has a newline for each of them. -/
theorem length_le_count_unlines (lines : List (List Char)) :
    lines.length ≤ (unlines lines).count '\n' := by
  induction lines with
  | nil => exact Nat.zero_le _
  | cons line rest ih =>
    rw [unlines_cons, List.count_append, List.count_cons_self, List.length_cons]
    omega

/-- Wherever the text of lines is cut, it lacks the last newline. -/
theorem count_take_unlines_lt (h : ∀ line ∈ lines, '\n' ∉ line) (hn : n < (unlines lines).length) :
    ((unlines lines).take n).count '\n' < lines.length := by
  induction lines generalizing n with
  | nil => exact absurd hn (Nat.not_lt_zero n)
  | cons line rest ih =>
    have hline : (line.take n).count '\n' = 0 :=
      List.count_eq_zero.2 fun hmem => h line List.mem_cons_self (List.mem_of_mem_take hmem)
    rw [unlines_cons, List.length_append, List.length_cons] at hn
    rw [unlines_cons, List.take_append, List.count_append, hline, Nat.zero_add, List.length_cons]
    -- The cut is in the first line, or behind its newline and in the others.
    cases hk : n - line.length with
    | zero => exact Nat.zero_lt_succ _
    | succ k =>
      rw [List.take_succ_cons, List.count_cons_self]
      exact Nat.succ_lt_succ (ih (fun l hl => h l (List.mem_cons_of_mem _ hl)) (by omega))

/-- The decimal of a number consists of digits. -/
theorem isDigit_of_mem_repr {ch : Char} (h : ch ∈ n.repr.toList) : ch.isDigit = true := by
  rw [Nat.toList_repr] at h
  exact Nat.isDigit_of_mem_toDigits (by decide) (by decide) h

/-- A number is read back from its decimal. -/
theorem naturalOf?_repr (n : Nat) : naturalOf? n.repr.toList = some n := by
  have hdigits : n.repr.toList.all Char.isDigit = true :=
    List.all_eq_true.2 fun _ => isDigit_of_mem_repr
  rw [naturalOf?, if_pos hdigits, Nat.toList_repr,
    Nat.ofDigitChars_toDigits (by decide) (by decide)]

/-- What names and counts consist of: characters of one byte that end neither of them. -/
def IsPlain (ch : Char) : Prop := ch.toNat < 128 ∧ ch ≠ ',' ∧ ch ≠ '\n'

instance (ch : Char) : Decidable (IsPlain ch) :=
  inferInstanceAs (Decidable (ch.toNat < 128 ∧ ch ≠ ',' ∧ ch ≠ '\n'))

/-- A plain character is encoded in one byte. -/
theorem IsPlain.utf8Size_eq {ch : Char} (h : IsPlain ch) : ch.utf8Size = 1 :=
  Char.utf8Size_eq_one_iff.2 (UInt32.le_iff_toNat_le.2 (Nat.le_of_lt_succ h.1))

/-- Digits are plain. -/
theorem isPlain_of_isDigit {ch : Char} (h : ch.isDigit = true) : IsPlain ch := by
  have hnine : ch.toNat ≤ 57 := (Char.isDigit_iff_toNat.1 h).2
  refine ⟨by omega, ?_, ?_⟩
  · rintro rfl
    exact absurd h (by decide)
  · rintro rfl
    exact absurd h (by decide)

/-- Going through a list gives one result for each element. -/
theorem length_of_mapM_eq_some {α β : Type} {k : β → Option α} {ys : List β} {xs : List α}
    (h : ys.mapM k = some xs) : xs.length = ys.length := by
  induction ys generalizing xs with
  | nil =>
    obtain rfl := Option.some.inj h
    rfl
  | cons y ys ih =>
    rw [List.mapM_cons] at h
    obtain ⟨x, -, h⟩ := Option.bind_eq_some_iff.1 h
    obtain ⟨rest, hrest, h⟩ := Option.bind_eq_some_iff.1 h
    obtain rfl := Option.some.inj h
    rw [List.length_cons, List.length_cons, ih hrest]

namespace Counters

variable {c : Counters} {e : String × UInt64} {ch : Char} {rows : List (String × UInt64)}

/-! ## Reading -/

/-- The name and the count that a line `name,count` gives; the count is a decimal and fits a
counter. -/
def rowOf? (line : List Char) : Option (String × UInt64) :=
  match line.splitOn ',' with
  | [name, digits] =>
    match naturalOf? digits with
    | some n => if digits = [] ∨ UInt64.size ≤ n then none else some (String.ofList name, .ofNat n)
    | none => none
  | _ => none

/-- The names and counts that the lines of a text give. -/
def rowsOf? (text : String) : Option (List (String × UInt64)) :=
  (linesOf? text.toList).bind fun lines => lines.mapM rowOf?

/-- The counters that rows give by name. Rows that do not name each counter once, or that name
anything else, give none. -/
def ofRows? (rows : List (String × UInt64)) : Option Counters :=
  Option.guard (fun c => rows.isPerm c.entries) (ofNames fun name => (rows.lookup name).getD 0)

/-- The counters that a text reports. -/
def ofCsv? (text : String) : Option Counters := (rowsOf? text).bind ofRows?

/-! ## Rows -/

/-- No two counters have the same name. -/
theorem entries_nodup (c : Counters) : (c.entries.map (·.1)).Nodup := by
  simp [entries]

/-- Where names are different, a name gives the count that is listed with it. -/
theorem lookup_eq_some_iff_mem (h : (rows.map (·.1)).Nodup) {name : String} {count : UInt64} :
    rows.lookup name = some count ↔ (name, count) ∈ rows := by
  rw [List.lookup_eq_some_iff]
  constructor
  · rintro ⟨xs, ys, rfl, -⟩
    exact List.mem_append_right xs List.mem_cons_self
  · intro hmem
    obtain ⟨xs, ys, rfl⟩ := List.append_of_mem hmem
    refine ⟨xs, ys, rfl, fun row hrow => bne_iff_ne.2 fun hname => ?_⟩
    rw [List.map_append, List.map_cons, List.nodup_append] at h
    exact h.2.2 row.1 (List.mem_map_of_mem hrow) name List.mem_cons_self hname.symm

/-- Rows give counters exactly if they are the entries of these, in any order. -/
theorem ofRows?_eq_some_iff : ofRows? rows = some c ↔ rows.Perm c.entries := by
  rw [ofRows?, Option.guard_eq_some_iff, List.isPerm_iff]
  refine ⟨fun ⟨heq, hperm⟩ => heq ▸ hperm, fun h => ?_⟩
  have hlookup : ∀ name, rows.lookup name = c.entries.lookup name := fun name =>
    Option.ext fun count => by
      rw [lookup_eq_some_iff_mem ((h.map (·.1)).nodup_iff.2 c.entries_nodup),
        lookup_eq_some_iff_mem c.entries_nodup, h.mem_iff]
  have hall : ofNames (fun name => (rows.lookup name).getD 0) = c := by
    simp only [hlookup]
    exact c.ofNames_entries
  exact ⟨hall, hall.symm ▸ h⟩

/-- The sorted entries ascend strictly by name. -/
theorem sortedEntries_ascend (c : Counters) : c.sortedEntries.Pairwise (·.1 < ·.1) := by
  have hnodup : (c.sortedEntries.map (·.1)).Nodup :=
    (c.sortedEntries_perm.map (·.1)).nodup_iff.2 c.entries_nodup
  refine (c.sortedEntries_pairwise.and (List.pairwise_map.1 hnodup)).imp fun ⟨hle, hne⟩ => ?_
  exact String.not_le.1 fun hge => hne (String.le_antisymm hle hge)

/-- The entries in the order in which a report lists them. -/
theorem sortedEntries_eq (c : Counters) : c.sortedEntries =
    [("Functions", c.functions), ("Instructions", c.instructions), ("LICMBasic", c.basicHoisted),
      ("LICMLoadHoist", c.loadsHoisted), ("LICMNoPreheader", c.noPreheader), ("Loads", c.loads),
      ("LoopsNoLoad", c.loopsNoLoad), ("LoopsNoStore", c.loopsNoStore),
      ("LoopsNoStoreWithLoad", c.loopsNoStoreWithLoad), ("LoopsWithCall", c.loopsWithCall),
      ("NumLoops", c.numLoops), ("Stores", c.stores)] := by
  simp [sortedEntries, entries, List.mergeSort, nameLe]

/-! ## The text of a report -/

/-- The line of one counter, without its newline. -/
def csvLine (e : String × UInt64) : List Char := e.1.toList ++ ',' :: e.2.toNat.repr.toList

/-- The report consists of the lines of the sorted entries. -/
theorem toList_csvText (c : Counters) :
    c.csvText.toList = unlines (c.sortedEntries.map csvLine) := by
  have hpieces : ∀ e, (csvPieces e).flatMap String.toList = csvLine e ++ ['\n'] := by
    intro e
    simp [csvPieces, csvLine]
  rw [csvText, String.toList_join, List.flatMap_assoc, unlines, List.flatMap_map]
  exact List.flatMap_congr fun e _ => hpieces e

/-- Names are plain. -/
theorem isPlain_of_mem_name (he : e ∈ c.entries) (hch : ch ∈ e.1.toList) : IsPlain ch := by
  have hall : (c.entries.all fun e => e.1.toList.all fun ch => decide (IsPlain ch)) = true := by
    simp [entries, IsPlain]
  exact of_decide_eq_true (List.all_eq_true.1 (List.all_eq_true.1 hall e he) ch hch)

/-- Counts are plain. -/
theorem isPlain_of_mem_repr (hch : ch ∈ n.repr.toList) : IsPlain ch :=
  isPlain_of_isDigit (isDigit_of_mem_repr hch)

/-- A line is plain but for its comma. -/
theorem isPlain_of_mem_csvLine (he : e ∈ c.entries) (hch : ch ∈ csvLine e) :
    ch = ',' ∨ IsPlain ch := by
  rw [csvLine, List.mem_append, List.mem_cons] at hch
  rcases hch with h | h | h
  · exact .inr (isPlain_of_mem_name he h)
  · exact .inl h
  · exact .inr (isPlain_of_mem_repr h)

/-- No line has a newline in it. -/
theorem newline_not_mem_csvLine (c : Counters) :
    ∀ line ∈ c.sortedEntries.map csvLine, '\n' ∉ line := by
  intro line hline hmem
  obtain ⟨e, he, rfl⟩ := List.mem_map.1 hline
  exact absurd (isPlain_of_mem_csvLine (c.sortedEntries_perm.mem_iff.1 he) hmem) (by decide)

/-- Each character of a report is one byte. -/
theorem utf8Size_of_mem_csvText (hch : ch ∈ c.csvText.toList) : ch.utf8Size = 1 := by
  rw [toList_csvText, unlines, List.flatMap_map, List.mem_flatMap] at hch
  obtain ⟨e, he, hch⟩ := hch
  rcases List.mem_append.1 hch with hline | hend
  · rcases isPlain_of_mem_csvLine (c.sortedEntries_perm.mem_iff.1 he) hline with rfl | h
    · rfl
    · exact h.utf8Size_eq
  · rw [List.mem_singleton.1 hend]
    rfl

/-- A counter is read back from its line. -/
theorem rowOf?_csvLine (he : e ∈ c.entries) : rowOf? (csvLine e) = some e := by
  have hname : ',' ∉ e.1.toList := fun hmem => (isPlain_of_mem_name he hmem).2.1 rfl
  have hdigits : ',' ∉ e.2.toNat.repr.toList := fun hmem => (isPlain_of_mem_repr hmem).2.1 rfl
  have hsplit : (csvLine e).splitOn ',' = [e.1.toList, e.2.toNat.repr.toList] := by
    rw [csvLine, List.splitOn_append_cons_self_of_not_mem hname, List.splitOn_eq_singleton hdigits]
  have hfits : ¬ (e.2.toNat.repr.toList = [] ∨ UInt64.size ≤ e.2.toNat) := by
    rintro (hempty | hlarge)
    · simp at hempty
    · exact absurd e.2.toNat_lt_size (Nat.not_lt_of_le hlarge)
  simp only [rowOf?, hsplit, naturalOf?_repr, if_neg hfits, String.ofList_toList,
    UInt64.ofNat_toNat]

/-- The rows of a report are the sorted entries. -/
theorem rowsOf?_csvText (c : Counters) : rowsOf? c.csvText = some c.sortedEntries := by
  have hrow : ∀ e ∈ c.sortedEntries, (rowOf? ∘ csvLine) e = pure (id e) := fun e he =>
    rowOf?_csvLine (c.sortedEntries_perm.mem_iff.1 he)
  rw [rowsOf?, toList_csvText, linesOf?_unlines c.newline_not_mem_csvLine, Option.bind_some,
    List.mapM_map, mapM_eq_pure hrow, List.map_id]
  rfl

/-- Counters are read back from their report. -/
theorem ofCsv?_csvText (c : Counters) : ofCsv? c.csvText = some c := by
  rw [ofCsv?, rowsOf?_csvText]
  exact ofRows?_eq_some_iff.2 c.sortedEntries_perm

/-- A report that is cut reports no counters, since it lacks a newline. -/
theorem ofCsv?_take (hn : n < c.csvText.toList.length) :
    ofCsv? (String.ofList (c.csvText.toList.take n)) = none := by
  rw [Option.eq_none_iff_forall_ne_some]
  intro d hd
  obtain ⟨rows, hrows, hd⟩ := Option.bind_eq_some_iff.1 hd
  obtain ⟨lines, hlines, hrows⟩ := Option.bind_eq_some_iff.1 hrows
  rw [String.toList_ofList] at hlines
  -- What is read has a newline for each counter, and a report that is cut has fewer.
  have hread : c.entries.length ≤ (c.csvText.toList.take n).count '\n' := by
    calc c.entries.length = d.entries.length := rfl
      _ = rows.length := (ofRows?_eq_some_iff.1 hd).length_eq.symm
      _ = lines.length := length_of_mapM_eq_some hrows
      _ ≤ (unlines lines).count '\n' := length_le_count_unlines lines
      _ = (c.csvText.toList.take n).count '\n' := by rw [← eq_unlines_of_linesOf? hlines]
  rw [toList_csvText] at hn hread
  have hcut := count_take_unlines_lt c.newline_not_mem_csvLine hn
  rw [List.length_map, c.sortedEntries_perm.length_eq] at hcut
  exact absurd hread (Nat.not_le_of_lt hcut)

/-! ## Writing -/

/-- The bytes of the report are those of its pieces. -/
theorem encode_csvText (c : Counters) : Sink.encode c.csvText =
    ((c.sortedEntries.flatMap csvPieces).map Sink.encode).flatten := by
  rw [csvText, Sink.encode_join, List.flatMap_def]

/-- A sink that takes `n` bytes takes the first `n` bytes of a report, and writing fails if there
are more. -/
theorem writeCsv_limited (c : Counters) (n : Nat) : c.writeCsv { limit := some n } =
    ({ limit := some n, bytes := (Sink.encode c.csvText).take n },
      if (Sink.encode c.csvText).length ≤ n then .ok () else .error .io) := by
  unfold writeCsv
  rw [Sink.writeAll_limited, ← encode_csvText, List.nil_append, List.length_nil, Nat.sub_zero]
  by_cases hfits : (Sink.encode c.csvText).length ≤ n
  · simp only [hfits, decide_true, if_true]
  · simp only [hfits, decide_false, if_false]

/-- A sink without a limit takes all of a report. -/
theorem writeCsv_unlimited (c : Counters) :
    c.writeCsv {} = ({ bytes := Sink.encode c.csvText }, .ok ()) := by
  unfold writeCsv
  rw [Sink.writeAll_unlimited, ← encode_csvText]
  rfl

/-- A sink in which a report does not fit holds a text, but none from which counters are read. -/
theorem exists_text?_writeCsv (hn : n < (Sink.encode c.csvText).length) :
    ∃ text, (c.writeCsv { limit := some n }).1.text? = some text ∧ ofCsv? text = none := by
  have hsize : ∀ ch ∈ c.csvText.toList, ch.utf8Size = 1 := fun _ => utf8Size_of_mem_csvText
  -- The bytes that it holds are those of the first characters, one for each.
  have hbytes : (c.writeCsv { limit := some n }).1.bytes =
      Sink.encode (String.ofList (c.csvText.toList.take n)) := by
    rw [writeCsv_limited]
    exact Sink.take_encode hsize n
  rw [Sink.encode_eq_map hsize, List.length_map] at hn
  exact ⟨_, Sink.text?_of_bytes hbytes, ofCsv?_take hn⟩

/-- What holds of the report of `c`, however much of it a sink takes. -/
structure Reported (c : Counters) : Prop where
  /-- Its lines give each counter with its name, in ascending order of the names. -/
  rows : ∃ rows, rowsOf? c.csvText = some rows ∧ rows.Perm c.entries ∧ rows.Pairwise (·.1 < ·.1)
  /-- The counters are read back from it. -/
  readback : ofCsv? c.csvText = some c
  /-- A sink without a limit takes all of it. -/
  whole : c.writeCsv {} = ({ bytes := Sink.encode c.csvText }, .ok ())
  /-- A sink that takes `n` bytes is left with its first `n` bytes, or with all of them. -/
  taken : ∀ n, (c.writeCsv { limit := some n }).1.bytes = (Sink.encode c.csvText).take n
  /-- Writing succeeds exactly if it has at most `n` bytes, and else reports the failure of the
  sink. -/
  result : ∀ n, (c.writeCsv { limit := some n }).2 =
    if (Sink.encode c.csvText).length ≤ n then .ok () else .error .io
  /-- A sink in which it did not fit holds a text, but none from which counters are read. -/
  cut : ∀ n, n < (Sink.encode c.csvText).length →
    ∃ text, (c.writeCsv { limit := some n }).1.text? = some text ∧ ofCsv? text = none

/-- Reports are faithful, and where they do not fit they fail cleanly. The report of all counters
reads back as these counters, by its lines and by name; a sink that takes `n` bytes is left with the
first `n` bytes of it, and writing succeeds exactly if that is all; what is cut does not pass for a
report. What is read back from the report of a sum is, counter by counter, the sum of the counters,
where that fits. -/
theorem writeCsv_faithful : (∀ c : Counters, Reported c) ∧
    ∀ a b : Counters, ∃ d, ofCsv? (a + b).csvText = some d ∧
      ∀ name, (a.get name).toNat + (b.get name).toNat < UInt64.size →
        (d.get name).toNat = (a.get name).toNat + (b.get name).toNat := by
  constructor
  · intro c
    refine ⟨⟨c.sortedEntries, c.rowsOf?_csvText, c.sortedEntries_perm, c.sortedEntries_ascend⟩,
      c.ofCsv?_csvText, c.writeCsv_unlimited, fun n => ?_, fun n => ?_,
      fun n => exists_text?_writeCsv⟩
    · rw [writeCsv_limited]
    · rw [writeCsv_limited]
  · intro a b
    refine ⟨a + b, (a + b).ofCsv?_csvText, fun name hfits => ?_⟩
    rw [get_add, UInt64.toNat_add]
    exact Nat.mod_eq_of_lt hfits

/-- Counters that include nearly half of the loops that can be counted. -/
def half : Counters := { numLoops := 9223372036854775807, loads := 3 }

/-- The report of the sum of two halves: both are read back from it, and the sink that cuts it
within the number of loops does not hold a report. -/
theorem writeCsv_faithful_half :
    (∃ d, ofCsv? (half + half).csvText = some d ∧
      (d.get "NumLoops").toNat = 18446744073709551614 ∧ (d.get "Loads").toNat = 6) ∧
    ((half + half).writeCsv { limit := some 161 }).2 = .error .io ∧
    ∃ text, ((half + half).writeCsv { limit := some 161 }).1.text? = some text ∧
      ofCsv? text = none := by
  obtain ⟨hreported, hsum⟩ := writeCsv_faithful
  have hlength : (Sink.encode (half + half).csvText).length = 188 := by
    rw [csvText, sortedEntries_eq]
    decide +kernel
  obtain ⟨d, hd, hget⟩ := hsum half half
  refine ⟨⟨d, hd, (hget "NumLoops" (by decide)).trans (by decide),
    (hget "Loads" (by decide)).trans (by decide)⟩, ?_, (hreported _).cut 161 (by omega)⟩
  rw [(hreported _).result, hlength]
  rfl

end Counters

end LoopHoist
