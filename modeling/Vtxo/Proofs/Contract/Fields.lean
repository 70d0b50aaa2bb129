import Mathlib.Data.List.Perm.Basic
import Vtxo.Contract.Codec
import Vtxo.Proofs.Success
import Vtxo.Proofs.Text.Ascii

/-!
# Fields, written and read

Escaping leaves no separator in a key or a value, so a text falls apart into the pairs it was written from. A pair is
read back unless its key is empty, and kept unless its key is that of the type. Of the fields that are read only their
lookup matters, and as long as no key occurs twice, lookup does not depend on the order.

  1. `splitAll_encode`: the parts of a text.
  2. `decode_encode_eq_ok_iff`, `decode_encode_iff`: what is read from a text, and when these are the fields it was
     written from.
  3. `decode_of_reordered`: the pairs of a text, also with those after the first one in another order.
  4. `get?_of_perm`: lookup in fields with different keys.
-/

set_option autoImplicit false

namespace Vtxo

/-! ## Parts between separators -/

theorem splitAll_of_notMem {separator : Char} {part : List Char} (h : separator ∉ part) :
    splitAll separator part = [part] := by
  induction part with
  | nil => rfl
  | cons c rest ih =>
    obtain ⟨hfirst, hrest⟩ := not_or.mp (mt List.mem_cons.mpr h)
    rw [splitAll, if_neg (Ne.symm hfirst), ih hrest]

theorem splitAll_append {separator : Char} {part : List Char} (h : separator ∉ part) (rest : List Char) :
    splitAll separator (part ++ separator :: rest) = part :: splitAll separator rest := by
  induction part with
  | nil => rw [List.nil_append, splitAll, if_pos rfl]
  | cons c others ih =>
    obtain ⟨hfirst, hrest⟩ := not_or.mp (mt List.mem_cons.mpr h)
    rw [List.cons_append, splitAll, if_neg (Ne.symm hfirst), ih hrest]

/-- Parts without separators are found again. -/
theorem splitAll_flatMap {separator : Char} {first : List Char} {parts : List (List Char)}
    (hfirst : separator ∉ first) (hparts : ∀ part ∈ parts, separator ∉ part) :
    splitAll separator (first ++ parts.flatMap (separator :: ·)) = first :: parts := by
  induction parts generalizing first with
  | nil => rw [List.flatMap_nil, List.append_nil, splitAll_of_notMem hfirst]
  | cons part rest ih =>
    obtain ⟨hpart, hrest⟩ := List.forall_mem_cons.mp hparts
    rw [List.flatMap_cons, List.cons_append, splitAll_append hfirst, ih hpart hrest]

theorem splitOnce?_append {separator : Char} {before : List Char} (h : separator ∉ before)
    (after : List Char) : splitOnce? separator (before ++ separator :: after) = some (before, after) := by
  induction before with
  | nil => rw [List.nil_append, splitOnce?, if_pos rfl]
  | cons c rest ih =>
    obtain ⟨hfirst, hrest⟩ := not_or.mp (mt List.mem_cons.mpr h)
    rw [List.cons_append, splitOnce?, if_neg (Ne.symm hfirst), ih hrest]
    rfl

/-! ## Escaped texts -/

namespace Percent

theorem escapeByte_isAscii : ∀ n ∈ List.range 256, ∀ code ∈ escapeByte (UInt8.ofNat n),
    code < 0x80 ∧ code ≠ 0x26 ∧ code ≠ 0x3d := by
  -- Each byte has three codes at most, and only these are tried, not all 256 that a code can be.
  have hall : ∀ n ∈ List.range 256, (escapeByte (UInt8.ofNat n)).all
      (fun code => decide (code < 0x80 ∧ code ≠ 0x26 ∧ code ≠ 0x3d)) = true := by
    decide +kernel
  simpa only [List.all_eq_true, decide_eq_true_eq] using hall

/-- No escaped code is a separator. -/
theorem escape_isAscii {bytes : Bytes} {code : UInt8} (h : code ∈ escape bytes) :
    code < 0x80 ∧ code ≠ 0x26 ∧ code ≠ 0x3d := by
  obtain ⟨b, _, hcode⟩ := List.mem_flatMap.mp h
  refine escapeByte_isAscii b.toNat (List.mem_range.mpr b.toNat_lt) code ?_
  rwa [UInt8.ofNat_toNat]

end Percent

namespace Fields

/-- The characters of an escaped text. -/
def escaped (text : String) : List Char :=
  (Percent.escape (Utf8.encode text)).map Utf8.asciiChar

theorem toList_escapeText (text : String) : (escapeText text).toList = escaped text :=
  String.toList_ofList

theorem notMem_escaped {separator : Char} (h : separator = '&' ∨ separator = '=') (text : String) :
    separator ∉ escaped text := by
  intro hmem
  obtain ⟨code, hcode, hchar⟩ := List.mem_map.mp hmem
  obtain ⟨hascii, hamp, heq⟩ := Percent.escape_isAscii hcode
  have hnat : code.toNat = separator.toNat := by rw [← hchar, Utf8.toNat_asciiChar hascii]
  rcases h with rfl | rfl
  · exact hamp (UInt8.toNat_inj.mp hnat)
  · exact heq (UInt8.toNat_inj.mp hnat)

/-- An escaped text stands for the text. -/
theorem unescapeText_escaped (text : String) : unescapeText (escaped text) = .ok text := by
  have hcodes : Utf8.encode (String.ofList (escaped text)) = Percent.escape (Utf8.encode text) :=
    Utf8.encode_map_asciiChar fun code hcode => (Percent.escape_isAscii hcode).1
  rw [unescapeText, hcodes, Percent.unescape_escape, Utf8.decode_encode]

theorem escaped_ne_nil {text : String} (h : text ≠ "") : escaped text ≠ [] := by
  intro hnil
  have hok := unescapeText_escaped text
  rw [hnil] at hok
  have hempty : unescapeText [] = .ok "" := unescapeText_escaped ""
  rw [hempty] at hok
  exact h (Except.ok.inj hok).symm

/-! ## Pairs -/

/-- The characters of a pair. -/
def pairText (pair : String × String) : List Char :=
  escaped pair.1 ++ '=' :: escaped pair.2

theorem notMem_pairText (pair : String × String) : '&' ∉ pairText pair := by
  have hkey := notMem_escaped (.inl rfl) pair.1
  have hvalue := notMem_escaped (.inl rfl) pair.2
  simp [pairText, hkey, hvalue]

theorem decodePair_pairText {pair : String × String} (h : pair.1 ≠ "") :
    decodePair (pairText pair) = .ok pair := by
  obtain ⟨c, rest, hkey⟩ := List.exists_cons_of_ne_nil (escaped_ne_nil h)
  have hsplit : splitOnce? '=' (pairText pair) = some (c :: rest, escaped pair.2) := by
    rw [pairText, splitOnce?_append (notMem_escaped (.inr rfl) _), hkey]
  rw [decodePair, hsplit]
  simp only
  rw [← hkey, unescapeText_escaped, unescapeText_escaped]
  rfl

/-- A pair is read back exactly if its key is not empty. -/
theorem decodePair_pairText_eq_ok_iff {pair read : String × String} :
    decodePair (pairText pair) = .ok read ↔ pair.1 ≠ "" ∧ pair = read := by
  by_cases hkey : pair.1 = ""
  · have hempty : escaped pair.1 = [] := by rw [hkey]; rfl
    have hsplit : splitOnce? '=' (pairText pair) = some ([], escaped pair.2) := by
      rw [pairText, splitOnce?_append (notMem_escaped (.inr rfl) _), hempty]
    rw [decodePair, hsplit]
    exact ⟨fun h => absurd h (by rintro ⟨⟩), fun h => absurd hkey h.1⟩
  · rw [decodePair_pairText hkey, Except.ok.injEq]
    exact (and_iff_right hkey).symm

theorem mapM_decodePair_eq_ok_iff {pairs read : List (String × String)} :
    (pairs.map pairText).mapM decodePair = .ok read ↔ (∀ pair ∈ pairs, pair.1 ≠ "") ∧ pairs = read := by
  calc (pairs.map pairText).mapM decodePair = .ok read
      ↔ List.Forall₂ (fun pair found => decodePair (pairText pair) = .ok found) pairs read :=
        mapM_eq_ok_iff.trans List.forall₂_map_left_iff
    _ ↔ List.Forall₂ (fun pair found => pair.1 ≠ "" ∧ pair = found) pairs read := by
        simp only [decodePair_pairText_eq_ok_iff]
    _ ↔ (∀ pair ∈ pairs, pair.1 ≠ "") ∧ List.Forall₂ Eq pairs read := List.forall₂_and_left ..
    _ ↔ (∀ pair ∈ pairs, pair.1 ≠ "") ∧ pairs = read := by rw [List.forall₂_eq_eq_eq]

theorem toList_foldl_push (pairs : List (String × String)) (start : String) :
    (pairs.foldl (fun text (key, value) => text ++ "&" ++ escapeText key ++ "=" ++ escapeText value) start).toList =
      start.toList ++ (pairs.map pairText).flatMap ('&' :: ·) := by
  induction pairs generalizing start with
  | nil => simp
  | cons pair rest ih =>
    rw [List.foldl_cons, ih, List.map_cons, List.flatMap_cons]
    simp [pairText, toList_escapeText]

/-- The parts of a text are those it was written from. -/
theorem splitAll_encode {tag : String} (htag : '&' ∉ tag.toList) (fields : Fields) :
    splitAll '&' (fields.encode tag).toList = (typeKey ++ "=" ++ tag).toList :: fields.pairs.map pairText := by
  have hfirst : '&' ∉ (typeKey ++ "=" ++ tag).toList := by
    simpa [typeKey] using htag
  rw [encode, toList_foldl_push, splitAll_flatMap hfirst]
  intro part hmem
  obtain ⟨pair, _, rfl⟩ := List.mem_map.mp hmem
  exact notMem_pairText pair

/-! ## What is read from a text -/

theorem decode_eq_ok_iff {text tag : String} {read : Fields} :
    decode text = .ok (tag, read) ↔ ∃ first parts pairs, splitAll '&' text.toList = first :: parts ∧
      decodePair first = .ok (typeKey, tag) ∧ parts.mapM decodePair = .ok pairs ∧
      read = ⟨pairs.filter fun pair => pair.1 ≠ typeKey⟩ := by
  rw [decode]
  constructor
  · intro h
    split at h
    · cases h
    · rename_i first parts hsplit
      obtain ⟨⟨key, found⟩, hfirst, h⟩ := bind_eq_ok.mp h
      obtain ⟨hkey, h⟩ := unless_eq_ok.mp h
      obtain ⟨pairs, hpairs, h⟩ := bind_eq_ok.mp h
      cases h
      exact ⟨first, parts, pairs, hsplit, (not_not.mp hkey) ▸ hfirst, hpairs, rfl⟩
  · rintro ⟨first, parts, pairs, hsplit, hfirst, hpairs, rfl⟩
    rw [hsplit]
    refine bind_eq_ok.mpr ⟨_, hfirst, unless_eq_ok.mpr ⟨not_not.mpr rfl, ?_⟩⟩
    exact bind_eq_ok.mpr ⟨pairs, hpairs, rfl⟩

/-- The tag of a kind stands in a text as it is. -/
theorem typeText_eq_pairText (kind : ContractKind) :
    '&' ∉ kind.tag.toList ∧ (typeKey ++ "=" ++ kind.tag).toList = pairText (typeKey, kind.tag) := by
  cases kind <;> decide +kernel

/-- The parts of a text that the kind was written to are pairs, the first one with the key of the type. -/
theorem splitAll_encode_tag (kind : ContractKind) (fields : Fields) :
    splitAll '&' (fields.encode kind.tag).toList = ((typeKey, kind.tag) :: fields.pairs).map pairText := by
  obtain ⟨htag, hpair⟩ := typeText_eq_pairText kind
  rw [splitAll_encode htag, hpair, List.map_cons]

theorem decodePair_tag (kind : ContractKind) : decodePair (pairText (typeKey, kind.tag)) = .ok (typeKey, kind.tag) :=
  decodePair_pairText_eq_ok_iff.mpr ⟨show typeKey ≠ "" by decide, rfl⟩

/-- A text is read if none of its keys is empty, and then all its pairs are kept that have not the key of the type. -/
theorem decode_encode_eq_ok_iff {kind : ContractKind} {fields read : Fields} :
    decode (fields.encode kind.tag) = .ok (kind.tag, read) ↔
      (∀ pair ∈ fields.pairs, pair.1 ≠ "") ∧ read = ⟨fields.pairs.filter fun pair => pair.1 ≠ typeKey⟩ := by
  rw [decode_eq_ok_iff]
  constructor
  · rintro ⟨first, parts, pairs, hsplit, _, hpairs, rfl⟩
    rw [splitAll_encode_tag] at hsplit
    obtain ⟨rfl, rfl⟩ := List.cons.inj hsplit
    obtain ⟨hkeys, rfl⟩ := mapM_decodePair_eq_ok_iff.mp hpairs
    exact ⟨hkeys, rfl⟩
  · rintro ⟨hkeys, rfl⟩
    exact ⟨_, _, _, splitAll_encode_tag kind fields, decodePair_tag kind,
      mapM_decodePair_eq_ok_iff.mpr ⟨hkeys, rfl⟩, rfl⟩

/-- Keys that can be written. -/
def Writable (fields : Fields) : Prop :=
  ∀ pair ∈ fields.pairs, pair.1 ≠ "" ∧ pair.1 ≠ typeKey

theorem Writable.filter_eq {fields : Fields} (h : fields.Writable) :
    fields.pairs.filter (fun pair => pair.1 ≠ typeKey) = fields.pairs :=
  List.filter_eq_self.mpr fun pair hmem => decide_eq_true (h pair hmem).2

/-- Fields are read back from their text, pair by pair, exactly if their keys can be written. -/
theorem decode_encode_iff (kind : ContractKind) (fields : Fields) :
    decode (fields.encode kind.tag) = .ok (kind.tag, fields) ↔ fields.Writable := by
  rw [decode_encode_eq_ok_iff]
  constructor
  · rintro ⟨hkeys, hkept⟩ pair hmem
    rw [hkept] at hmem
    obtain ⟨hmem, hkey⟩ := List.mem_filter.mp hmem
    exact ⟨hkeys pair hmem, of_decide_eq_true hkey⟩
  · intro h
    exact ⟨fun pair hmem => (h pair hmem).1, by rw [h.filter_eq]⟩

/-! ## Texts with pairs in another order -/

/-- The parts between separators of two texts are the same, but for the order of those after the first. -/
def Reordered (text other : String) : Prop :=
  ∃ first parts parts', splitAll '&' text.toList = first :: parts ∧
    splitAll '&' other.toList = first :: parts' ∧ parts.Perm parts'

theorem reordered_encode {tag : String} (htag : '&' ∉ tag.toList) {fields other : Fields}
    (h : fields.pairs.Perm other.pairs) : Reordered (fields.encode tag) (other.encode tag) :=
  ⟨_, _, _, splitAll_encode htag fields, splitAll_encode htag other, h.map pairText⟩

/-- From a text with its pairs in any order the same pairs are read, in that order. -/
theorem decode_of_reordered {kind : ContractKind} {fields : Fields} (h : fields.Writable) {text : String}
    (htext : Reordered (fields.encode kind.tag) text) :
    ∃ read : Fields, decode text = .ok (kind.tag, read) ∧ fields.pairs.Perm read.pairs := by
  obtain ⟨first, parts, parts', hsplit, hsplit', hperm⟩ := htext
  rw [splitAll_encode_tag] at hsplit
  obtain ⟨rfl, rfl⟩ := List.cons.inj hsplit
  -- The other text is written from the pairs in its own order.
  obtain ⟨pairs, rfl, hpairs⟩ := (congrFun₂ (List.eq_map_comp_perm pairText) parts' fields.pairs).mpr hperm.symm
  have hwritable : Writable ⟨pairs⟩ := fun pair hmem => h pair (hpairs.mem_iff.mp hmem)
  refine ⟨⟨pairs⟩, decode_eq_ok_iff.mpr ⟨_, _, pairs, hsplit', decodePair_tag kind, ?_, ?_⟩, hpairs.symm⟩
  · exact mapM_decodePair_eq_ok_iff.mpr ⟨fun pair hmem => (hwritable pair hmem).1, rfl⟩
  · rw [hwritable.filter_eq]

/-! ## Lookup -/

/-- No key occurs twice. -/
def Distinct (fields : Fields) : Prop :=
  (fields.pairs.map Prod.fst).Nodup

theorem get?_eq_some_iff {fields : Fields} (h : fields.Distinct) {key value : String} :
    fields.get? key = some value ↔ (key, value) ∈ fields.pairs := by
  obtain ⟨pairs⟩ := fields
  unfold get?
  induction pairs with
  | nil => simp
  | cons pair rest ih =>
    obtain ⟨hfirst, hrest⟩ := List.nodup_cons.mp h
    by_cases hkey : pair.1 = key
    · subst hkey
      have hnot : (pair.1, value) ∉ rest := fun hmem => hfirst (List.mem_map.mpr ⟨_, hmem, rfl⟩)
      obtain ⟨key, stored⟩ := pair
      simp only [List.find?_cons, beq_self_eq_true, Option.map_some, Option.some.injEq, List.mem_cons,
        Prod.mk.injEq, true_and, hnot, or_false]
      exact eq_comm
    · have hne : (key, value) ≠ pair := fun heq => hkey (heq ▸ rfl)
      rw [List.find?_cons_of_neg (by simpa using hkey), ih hrest, List.mem_cons]
      simp [hne]

theorem get?_of_perm {fields other : Fields} (h : fields.Distinct) (hperm : fields.pairs.Perm other.pairs)
    (key : String) : other.get? key = fields.get? key := by
  have hother : other.Distinct := (hperm.map Prod.fst).nodup_iff.mp h
  ext value
  rw [get?_eq_some_iff h, get?_eq_some_iff hother, hperm.mem_iff]

end Fields

end Vtxo
