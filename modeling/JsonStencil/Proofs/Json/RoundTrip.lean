import JsonStencil.Proofs.Json.Numbers

/-!
# Documents read back

What the writer makes of a document is read as the document again, wherever no number goes on behind
it. So no two documents have one text.
-/

namespace JsonStencil

namespace Json

open Entries (keys)

mutual

/-- A document holds integers of 64 bits and finite floats only, and distinct keys in each
object. -/
def isWellFormed : Json → Bool
  | .null | .bool _ | .string _ => true
  | .integer n => decide (IsWord n)
  | .float x => x.isFinite
  | .array items => itemsWellFormed items
  | .object entries => decide (keys entries).Nodup && entriesWellFormed entries

def itemsWellFormed : List Json → Bool
  | [] => true
  | item :: items => item.isWellFormed && itemsWellFormed items

def entriesWellFormed : List (String × Json) → Bool
  | [] => true
  | (_, value) :: entries => value.isWellFormed && entriesWellFormed entries

end

section Strings

theorem readHex?_fourHexDigits : ∀ n < 0x20, readHex? (fourHexDigits n) = some n := by decide

theorem readString?_cons {c : Char} (hquote : c ≠ '"') (hback : c ≠ '\\') (rest : List Char) :
    readString? (c :: rest) = if c.toNat < 0x20 then none
      else (readString? rest).map fun (cs, rest) => (c :: cs, rest) := by
  conv => lhs; unfold readString?
  split <;> simp_all

theorem readString?_escapeChar (c : Char) (rest : List Char) :
    readString? (escapeChar c ++ rest) =
      (readString? rest).map fun (cs, rest) => (c :: cs, rest) := by
  unfold escapeChar
  split
  · rfl
  · rfl
  · rfl
  · rfl
  · rfl
  · rfl
  · rfl
  next hquote hback _ _ _ _ _ =>
    split
    next hcontrol =>
      have hread := readHex?_fourHexDigits c.toNat hcontrol
      have hhigh : isHighSurrogate c.toNat = false := by
        simp [isHighSurrogate]
        omega
      have hlow : isLowSurrogate c.toNat = false := by
        simp [isLowSurrogate]
        omega
      simp only [fourHexDigits, List.map_cons, List.map_nil] at hread
      simp only [fourHexDigits, List.map_cons, List.map_nil, List.cons_append, List.nil_append,
        readString?, hread, hhigh, hlow, Char.ofNat_toNat]
      rfl
    next hcontrol => rw [List.singleton_append, readString?_cons hquote hback, if_neg hcontrol]

theorem readString?_quoted (s : String) (rest : List Char) :
    readString? (s.toList.flatMap escapeChar ++ '"' :: rest) = some (s.toList, rest) := by
  induction s.toList with
  | nil => rfl
  | cons c cs ih =>
    rw [List.flatMap_cons, List.append_assoc, readString?_escapeChar, ih]
    rfl

end Strings

/-- No number goes on at the start of the text. -/
def Ends (cs : List Char) : Prop := ∀ c ∈ cs.head?, isNumberChar c = false

theorem skipSpace_cons {c : Char} (h : isSpace c = false) (cs : List Char) :
    skipSpace (c :: cs) = c :: cs := by
  simp [skipSpace, h]

theorem ne_of_start {c d : Char} (hc : c = '-' ∨ c.isDigit) (hd : ¬(d = '-' ∨ d.isDigit)) :
    c ≠ d := by
  rintro rfl
  exact hd hc

theorem isSpace_of_start {c : Char} (hc : c = '-' ∨ c.isDigit) : isSpace c = false := by
  have hblank := ne_of_start hc (by decide : ¬(' ' = '-' ∨ ' '.isDigit))
  have hnewline := ne_of_start hc (by decide : ¬('\n' = '-' ∨ '\n'.isDigit))
  have hreturn := ne_of_start hc (by decide : ¬('\r' = '-' ∨ '\r'.isDigit))
  have htab := ne_of_start hc (by decide : ¬('\t' = '-' ∨ '\t'.isDigit))
  simp [isSpace, hblank, hnewline, hreturn, htab]

theorem span_isNumberChar {cs rest : List Char} (h : IsNumberText cs) (hrest : Ends rest) :
    (cs ++ rest).span isNumberChar = (cs, rest) := by
  rw [List.span_eq_takeWhile_dropWhile, List.takeWhile_append_of_pos h,
    List.dropWhile_append_of_pos h]
  cases rest with
  | nil => simp
  | cons c rest => simp [hrest c rfl]

theorem readValue?_number {cs rest : List Char} {json : Json} (h : IsNumber cs json)
    (hrest : Ends rest) (n : Nat) : readValue? (n + 1) (cs ++ rest) = some (json, rest) := by
  have hspan := span_isNumberChar h.chars hrest
  obtain ⟨-, ⟨c, cs', rfl, hc⟩, hreads⟩ := h
  have hother {d : Char} {front back : List Char} (hd : ¬(d = '-' ∨ d.isDigit))
      (heq : c :: back = d :: front) : False := ne_of_start hc hd (List.cons.inj heq).1
  rw [readValue?, List.cons_append, skipSpace_cons (isSpace_of_start hc)]
  split
  next heq => exact (hother (by decide) heq).elim
  next heq => exact (hother (by decide) heq).elim
  next heq => exact (hother (by decide) heq).elim
  next heq => exact (hother (by decide) heq).elim
  next heq => exact (hother (by decide) heq).elim
  next heq => exact (hother (by decide) heq).elim
  next =>
    rw [List.cons_append] at hspan
    rw [hspan]
    simp [hreads]

theorem ends_cons {c : Char} (h : isNumberChar c = false) (cs : List Char) : Ends (c :: cs) := by
  intro d hd
  cases hd
  exact h

theorem exists_chars {json : Json} (h : json.isWellFormed) :
    ∃ c cs, json.chars = c :: cs ∧ isSpace c = false ∧ c ≠ ']' := by
  have hnumber {cs : List Char} {x : Json} (hcs : IsNumber cs x) :
      ∃ c rest, cs = c :: rest ∧ isSpace c = false ∧ c ≠ ']' := by
    obtain ⟨c, rest, rfl, hc⟩ := hcs.start
    exact ⟨c, rest, rfl, isSpace_of_start hc, ne_of_start hc (by decide)⟩
  cases json with
  | null => exact ⟨_, _, rfl, rfl, by decide⟩
  | bool b => cases b <;> exact ⟨_, _, rfl, rfl, by decide⟩
  | integer n => exact hnumber (isNumber_integer (of_decide_eq_true h))
  | float x => exact hnumber (isNumber_float h)
  | string s => exact ⟨_, _, rfl, rfl, by decide⟩
  | array items => cases items <;> exact ⟨_, _, rfl, rfl, by decide⟩
  | object entries => cases entries <;> exact ⟨_, _, rfl, rfl, by decide⟩

/-- The text of the document is read as the document in front of any end, in no more steps than it
has characters. -/
def Reads (json : Json) : Prop :=
  ∀ n rest, json.chars.length ≤ n → Ends rest →
    readValue? n (json.chars ++ rest) = some (json, rest)

theorem reads_of_isNumber {json : Json} (h : IsNumber json.chars json) : Reads json := by
  intro n rest hn hrest
  obtain ⟨c, cs, hcs, -⟩ := h.start
  rw [hcs, List.length_cons] at hn
  cases n with
  | zero => cases hn
  | succ n => exact readValue?_number h hrest n

theorem reads_of_chars {json : Json} (c : Char) (cs : List Char) (hcs : json.chars = c :: cs)
    (h : ∀ n rest, cs.length ≤ n → readValue? (n + 1) (c :: (cs ++ rest)) = some (json, rest)) :
    Reads json := by
  intro n rest hn _
  rw [hcs, List.length_cons] at hn
  cases n with
  | zero => cases hn
  | succ n =>
    rw [hcs]
    exact h n rest (Nat.le_of_succ_le_succ hn)

theorem reads_string (s : String) : Reads (.string s) := by
  refine reads_of_chars '"' (s.toList.flatMap escapeChar ++ ['"']) rfl fun n rest _ => ?_
  rw [List.append_assoc, List.singleton_append]
  show (readString? (s.toList.flatMap escapeChar ++ '"' :: rest)).map _ = _
  rw [readString?_quoted, Option.map_some]
  dsimp only
  rw [String.ofList_toList]

theorem readValue?_items {c : Char} (hspace : isSpace c = false) (hc : c ≠ ']') (n : Nat)
    (cs : List Char) : readValue? (n + 1) ('[' :: c :: cs) =
      (readItems? n (c :: cs)).map fun (items, rest) => (.array items, rest) := by
  rw [readValue?, skipSpace_cons rfl]
  simp only [skipSpace_cons hspace]
  split
  next heq => exact (hc (List.cons.inj heq).1).elim
  next => rfl

theorem readValue?_entries (n : Nat) (key : String) (cs : List Char) :
    readValue? (n + 1) ('{' :: (quoted key ++ cs)) =
      (readEntries? n (quoted key ++ cs)).map
        fun (pairs, rest) => (.object (Entries.ofPairs pairs), rest) := rfl

theorem quoted_append (key : String) (cs : List Char) :
    quoted key ++ cs = '"' :: (key.toList.flatMap escapeChar ++ '"' :: cs) := by
  simp [quoted]

section First

variable {first : Json} (hfirst : Reads first) {n : Nat} (hn : first.chars.length ≤ n)
include hfirst hn

theorem readItems?_last (rest : List Char) :
    readItems? (n + 1) (first.chars ++ ']' :: rest) = some ([first], rest) := by
  rw [readItems?, hfirst n (']' :: rest) hn (ends_cons rfl _)]
  rfl

theorem readItems?_more (cs : List Char) :
    readItems? (n + 1) (first.chars ++ ',' :: cs) =
      (readItems? n cs).map fun (items, rest) => (first :: items, rest) := by
  rw [readItems?, hfirst n (',' :: cs) hn (ends_cons rfl _)]
  rfl

theorem readEntries?_last (key : String) (rest : List Char) :
    readEntries? (n + 1) (quoted key ++ ':' :: (first.chars ++ '}' :: rest)) =
      some ([(key, first)], rest) := by
  have hkey := readString?_quoted key (':' :: (first.chars ++ '}' :: rest))
  have hvalue := hfirst n ('}' :: rest) hn (ends_cons rfl _)
  have hcolon : isSpace ':' = false := rfl
  have hclose : isSpace '}' = false := rfl
  rw [quoted_append, readEntries?, skipSpace_cons rfl]
  simp only [hkey, skipSpace_cons hcolon, hvalue, skipSpace_cons hclose, String.ofList_toList]

theorem readEntries?_more (key : String) (cs : List Char) :
    readEntries? (n + 1) (quoted key ++ ':' :: (first.chars ++ ',' :: cs)) =
      (readEntries? n cs).map fun (pairs, rest) => ((key, first) :: pairs, rest) := by
  have hkey := readString?_quoted key (':' :: (first.chars ++ ',' :: cs))
  have hvalue := hfirst n (',' :: cs) hn (ends_cons rfl _)
  have hcolon : isSpace ':' = false := rfl
  have hcomma : isSpace ',' = false := rfl
  rw [quoted_append, readEntries?, skipSpace_cons rfl]
  simp only [hkey, skipSpace_cons hcolon, hvalue, skipSpace_cons hcomma, String.ofList_toList]

end First

mutual

theorem reads_of_isWellFormed : ∀ json : Json, json.isWellFormed → Reads json
  | .null, _ => reads_of_chars 'n' _ rfl fun _ _ _ => rfl
  | .bool false, _ => reads_of_chars 'f' _ rfl fun _ _ _ => rfl
  | .bool true, _ => reads_of_chars 't' _ rfl fun _ _ _ => rfl
  | .integer _, h => reads_of_isNumber (isNumber_integer (of_decide_eq_true h))
  | .float _, h => reads_of_isNumber (isNumber_float h)
  | .string s, _ => reads_string s
  | .array [], _ => reads_of_chars '[' _ rfl fun _ _ _ => rfl
  | .array (item :: items), h => by
    obtain ⟨hitem, hitems⟩ := Bool.and_eq_true_iff.1 h
    obtain ⟨c, cs, hcs, hspace, hc⟩ := exists_chars hitem
    refine reads_of_chars '[' (item.chars ++ itemsChars items) rfl fun n rest hn => ?_
    rw [List.length_append] at hn
    have hread := readItems?_chars items hitems item (reads_of_isWellFormed item hitem) n rest hn
    rw [List.append_assoc]
    rw [hcs] at hread ⊢
    rw [List.cons_append] at hread ⊢
    rw [readValue?_items hspace hc, hread]
    rfl
  | .object [], _ => reads_of_chars '{' _ rfl fun _ _ _ => rfl
  | .object ((key, value) :: entries), h => by
    obtain ⟨hkeys, hwhole⟩ := Bool.and_eq_true_iff.1 h
    obtain ⟨hvalue, hentries⟩ := Bool.and_eq_true_iff.1 hwhole
    refine reads_of_chars '{' (quoted key ++ ':' :: (value.chars ++ entriesChars entries)) ?_
      fun n rest hn => ?_
    · simp [chars]
    · simp only [List.length_append, List.length_cons] at hn
      have hread := readEntries?_chars entries hentries key value
        (reads_of_isWellFormed value hvalue) n rest (by omega)
      rw [List.append_assoc, List.cons_append, List.append_assoc, readValue?_entries, hread,
        Option.map_some]
      dsimp only
      rw [Entries.ofPairs_eq_self (of_decide_eq_true hkeys)]

theorem readItems?_chars : ∀ items : List Json, itemsWellFormed items →
    ∀ first : Json, Reads first → ∀ n rest, first.chars.length + (itemsChars items).length ≤ n →
      readItems? n (first.chars ++ (itemsChars items ++ rest)) = some (first :: items, rest)
  | [], _, first, hfirst, n, rest, hn => by
    rw [itemsChars, List.length_singleton] at hn
    obtain ⟨n, rfl⟩ : ∃ m, n = m + 1 := ⟨n - 1, by omega⟩
    exact readItems?_last hfirst (Nat.le_of_succ_le_succ hn) rest
  | item :: items, h, first, hfirst, n, rest, hn => by
    obtain ⟨hitem, hitems⟩ := Bool.and_eq_true_iff.1 h
    have hlength : (itemsChars (item :: items)).length =
        item.chars.length + (itemsChars items).length + 1 := by
      simp only [itemsChars, List.length_append, List.length_cons]
      omega
    have htail : itemsChars (item :: items) ++ rest =
        ',' :: (item.chars ++ (itemsChars items ++ rest)) := by
      simp [itemsChars]
    obtain ⟨n, rfl⟩ : ∃ m, n = m + 1 := ⟨n - 1, by omega⟩
    have hread := readItems?_chars items hitems item (reads_of_isWellFormed item hitem) n rest
      (by omega)
    rw [htail, readItems?_more hfirst (by omega), hread]
    rfl

theorem readEntries?_chars : ∀ entries : List (String × Json), entriesWellFormed entries →
    ∀ (key : String) (first : Json), Reads first → ∀ n rest,
      first.chars.length + (entriesChars entries).length ≤ n →
      readEntries? n (quoted key ++ ':' :: (first.chars ++ (entriesChars entries ++ rest))) =
        some ((key, first) :: entries, rest)
  | [], _, key, first, hfirst, n, rest, hn => by
    rw [entriesChars, List.length_singleton] at hn
    obtain ⟨n, rfl⟩ : ∃ m, n = m + 1 := ⟨n - 1, by omega⟩
    exact readEntries?_last hfirst (Nat.le_of_succ_le_succ hn) key rest
  | (key', value) :: entries, h, key, first, hfirst, n, rest, hn => by
    obtain ⟨hvalue, hentries⟩ := Bool.and_eq_true_iff.1 h
    have hlength : (entriesChars ((key', value) :: entries)).length =
        (quoted key').length + value.chars.length + (entriesChars entries).length + 2 := by
      simp only [entriesChars, List.length_append, List.length_cons]
      omega
    have htail : entriesChars ((key', value) :: entries) ++ rest =
        ',' :: (quoted key' ++ ':' :: (value.chars ++ (entriesChars entries ++ rest))) := by
      simp [entriesChars]
    obtain ⟨n, rfl⟩ : ∃ m, n = m + 1 := ⟨n - 1, by omega⟩
    have hread := readEntries?_chars entries hentries key' value
      (reads_of_isWellFormed value hvalue) n rest (by omega)
    rw [htail, readEntries?_more hfirst (by omega), hread]
    rfl

end

/-- A document is what its text is read as. -/
theorem read?_render {json : Json} (h : json.isWellFormed) : read? json.render = some json := by
  have hend : Ends [] := nofun
  have hread := reads_of_isWellFormed json h (json.chars.length + 1) [] (Nat.le_succ _) hend
  rw [List.append_nil] at hread
  unfold read? render
  rw [String.toList_ofList]
  dsimp only
  rw [hread]
  rfl

/-- No two documents have one text. -/
theorem render_injective {json json' : Json} (h : json.isWellFormed) (h' : json'.isWellFormed)
    (heq : json.render = json'.render) : json = json' := by
  have hread := read?_render h
  rw [heq, read?_render h'] at hread
  exact (Option.some.inj hread).symm

end Json

end JsonStencil
