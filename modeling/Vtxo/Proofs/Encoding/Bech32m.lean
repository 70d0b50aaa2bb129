import Mathlib.Algebra.Ring.Nat
import Vtxo.Encoding.Bech32m
import Vtxo.Encoding.Radix

/-!
# Bech32m, written and read

The checksum is chosen so that the remainder of the whole text is the residue. This works out because the remainder is
linear with respect to exclusive or: six values at the end contribute the number they spell, whatever came before them.

  1. `ofFives_toFives`: bytes survive the regrouping of their bits.
  2. `ofFives_eq_iff`: five more bits than the bytes need are dropped, whatever they are.
  3. `polymod_checksum`: the remainder of a text with its checksum.
  4. `eq_checksum`: no other six values give this remainder.
-/

set_option autoImplicit false

namespace Vtxo.Bech32m

/-! ## Bits -/

theorem bits_succ (width n : Nat) : bits (width + 1) n = (n / 2 ^ width % 2 == 1) :: bits width n := by
  rw [bits, List.range_succ_eq_map, List.map_cons, List.map_map, bits]
  simp only [Nat.add_sub_cancel, Nat.sub_zero, List.cons.injEq]
  refine ⟨Nat.testBit_eq_decide_div_mod_eq, List.map_congr_left fun i _ => ?_⟩
  have hexponent : width - (i + 1) = width - 1 - i := by omega
  simp only [Function.comp_apply, Nat.succ_eq_add_one, hexponent]

theorem length_bits (width n : Nat) : (bits width n).length = width := by
  simp [bits]

theorem length_flatMap_bits (width : Nat) (values : List Nat) :
    (values.flatMap (bits width)).length = width * values.length := by
  induction values with
  | nil => rfl
  | cons v rest ih =>
    rw [List.flatMap_cons, List.length_append, length_bits, ih, List.length_cons, Nat.mul_succ, Nat.add_comm]

theorem ofBits_cons (b : Bool) (bs : List Bool) : ofBits (b :: bs) = b.toNat * 2 ^ bs.length + ofBits bs := by
  have hshift : ∀ (bs : List Bool) (start : Nat),
      bs.foldl (fun n b => 2 * n + b.toNat) start =
        start * 2 ^ bs.length + bs.foldl (fun n b => 2 * n + b.toNat) 0 := by
    intro bs
    induction bs with
    | nil => simp
    | cons c rest ih =>
      intro start
      rw [List.foldl_cons, ih, List.foldl_cons, ih (2 * 0 + c.toNat), List.length_cons, Nat.pow_succ]
      grind
  rw [ofBits, List.foldl_cons, hshift, ofBits]
  simp

theorem ofBits_lt (bs : List Bool) : ofBits bs < 2 ^ bs.length := by
  induction bs with
  | nil => simp [ofBits]
  | cons b rest ih =>
    rw [ofBits_cons, List.length_cons, Nat.pow_succ]
    cases b
    · simp only [Bool.toNat_false]
      omega
    · simp only [Bool.toNat_true]
      omega

/-- Only the low bits are written. -/
theorem ofBits_bits (width n : Nat) : ofBits (bits width n) = n % 2 ^ width := by
  induction width with
  | zero => simp [bits, ofBits, Nat.mod_one]
  | succ width ih =>
    rw [bits_succ, ofBits_cons, ih, length_bits, Nat.mod_pow_succ]
    rcases Nat.mod_two_eq_zero_or_one (n / 2 ^ width) with h | h
    · simp [h]
    · simp [h, Nat.add_comm]

theorem bits_add_mul (width n high : Nat) : bits width (high * 2 ^ width + n) = bits width n := by
  induction width generalizing high with
  | zero => rfl
  | succ width ih =>
    have hsplit : high * 2 ^ (width + 1) + n = high * 2 * 2 ^ width + n := by
      rw [Nat.pow_succ, Nat.mul_assoc, Nat.mul_comm 2]
    rw [bits_succ, bits_succ, hsplit, ih]
    have hdiv : (high * 2 * 2 ^ width + n) / 2 ^ width = high * 2 + n / 2 ^ width := by
      rw [Nat.add_comm, Nat.add_mul_div_right _ _ (Nat.two_pow_pos width), Nat.add_comm]
    have hmod : (high * 2 + n / 2 ^ width) % 2 = n / 2 ^ width % 2 := by omega
    rw [hdiv, hmod]

theorem bits_ofBits (bs : List Bool) : bits bs.length (ofBits bs) = bs := by
  induction bs with
  | nil => rfl
  | cons b rest ih =>
    rw [List.length_cons, bits_succ, ofBits_cons, bits_add_mul, ih]
    have hdiv : (b.toNat * 2 ^ rest.length + ofBits rest) / 2 ^ rest.length = b.toNat := by
      rw [Nat.add_comm, Nat.add_mul_div_right _ _ (Nat.two_pow_pos _), Nat.div_eq_of_lt (ofBits_lt rest),
        Nat.zero_add]
    rw [hdiv]
    cases b <;> rfl

/-! ## Groups of bits -/

theorem groups_append {width : Nat} (hwidth : 0 < width) {chunk : List Bool} (h : chunk.length = width)
    (rest : List Bool) : groups width (chunk ++ rest) = ofBits chunk :: groups width rest := by
  have hfull : 0 < width ∧ width ≤ (chunk ++ rest).length := ⟨hwidth, by simp; omega⟩
  rw [groups, dif_pos hfull, ← h, List.take_left, List.drop_left]

theorem groups_of_short {width : Nat} {bs : List Bool} (h : bs.length < width) : groups width bs = [] := by
  rw [groups, dif_neg (by omega)]

/-- Numbers are read back from their bits; what fills no group is dropped. -/
theorem groups_flatMap_bits {width : Nat} {values : List Nat} (hvalues : ∀ v ∈ values, v < 2 ^ width)
    {tail : List Bool} (htail : tail.length < width) :
    groups width (values.flatMap (bits width) ++ tail) = values := by
  induction values with
  | nil => exact groups_of_short htail
  | cons v rest ih =>
    obtain ⟨hfirst, hrest⟩ := List.forall_mem_cons.mp hvalues
    rw [List.flatMap_cons, List.append_assoc, groups_append (by omega) (length_bits width v), ofBits_bits,
      Nat.mod_eq_of_lt hfirst, ih hrest]

/-- Numbers are determined by their bits. -/
theorem flatMap_bits_inj {width : Nat} (hwidth : 0 < width) {a b : List Nat} (ha : ∀ v ∈ a, v < 2 ^ width)
    (hb : ∀ v ∈ b, v < 2 ^ width) (h : a.flatMap (bits width) = b.flatMap (bits width)) : a = b := by
  have hfirst := @groups_flatMap_bits width a ha [] hwidth
  have hsecond := @groups_flatMap_bits width b hb [] hwidth
  rw [← hfirst, h, hsecond]

/-- Bits in whole groups are those of the groups. -/
theorem flatMap_bits_groups {width : Nat} (hwidth : 0 < width) (bs : List Bool) (h : bs.length % width = 0) :
    (groups width bs).flatMap (bits width) = bs := by
  induction hlength : bs.length using Nat.strongRecOn generalizing bs with
  | ind n ih =>
    by_cases hshort : bs.length < width
    · have hnil : bs = [] := List.eq_nil_of_length_eq_zero (by rwa [Nat.mod_eq_of_lt hshort] at h)
      rw [groups_of_short hshort, hnil]
      rfl
    · have htake : (bs.take width).length = width := by
        rw [List.length_take]
        omega
      have hdrop : (bs.drop width).length % width = 0 := by
        rw [List.length_drop, ← Nat.mod_eq_sub_mod (Nat.not_lt.mp hshort)]
        exact h
      have hless : (bs.drop width).length < n := by
        rw [List.length_drop]
        omega
      have hbits := bits_ofBits (bs.take width)
      rw [htake] at hbits
      conv =>
        lhs
        rw [← List.take_append_drop width bs]
      rw [groups_append hwidth htake, List.flatMap_cons, hbits, ih _ hless _ hdrop rfl, List.take_append_drop]

theorem groups_lt {width : Nat} (bs : List Bool) : ∀ v ∈ groups width bs, v < 2 ^ width := by
  induction hlength : bs.length using Nat.strongRecOn generalizing bs with
  | ind n ih =>
    intro v hmem
    rw [groups] at hmem
    split at hmem
    · next hfull =>
      have htake : (bs.take width).length = width := by
        rw [List.length_take]
        omega
      rcases List.mem_cons.mp hmem with rfl | hrest
      · have := ofBits_lt (bs.take width)
        rwa [htake] at this
      · exact ih _ (by rw [List.length_drop]; omega) _ rfl v hrest
    · cases hmem

/-- Bits are those of their groups, and some that fill no group. -/
theorem exists_flatMap_bits_groups {width : Nat} (hwidth : 0 < width) (bs : List Bool) :
    ∃ rest, rest.length < width ∧ bs = (groups width bs).flatMap (bits width) ++ rest := by
  let whole := bs.length - bs.length % width
  have hmod := Nat.mod_lt bs.length hwidth
  have hle := Nat.mod_le bs.length width
  have hrest : (bs.drop whole).length < width := by
    rw [List.length_drop]
    omega
  have hfront : (bs.take whole).length % width = 0 := by
    rw [List.length_take, Nat.min_eq_left (Nat.sub_le _ _)]
    exact Nat.sub_mod_eq_zero_of_mod_eq (Nat.mod_mod _ _).symm
  have hbits := flatMap_bits_groups hwidth _ hfront
  have hgroups : groups width bs = groups width (bs.take whole) := by
    conv =>
      lhs
      rw [← List.take_append_drop whole bs, ← hbits]
    exact groups_flatMap_bits (groups_lt _) hrest
  exact ⟨bs.drop whole, hrest, by rw [hgroups, hbits, List.take_append_drop]⟩

/-! ## Bytes in five-bit values -/

/-- The bits of bytes. -/
def byteBits (bytes : Bytes) : List Bool :=
  bytes.flatMap fun b => bits 8 b.toNat

theorem byteBits_eq (bytes : Bytes) : byteBits bytes = (bytes.map UInt8.toNat).flatMap (bits 8) := by
  rw [byteBits, List.flatMap_map]

theorem length_byteBits (bytes : Bytes) : (byteBits bytes).length = 8 * bytes.length := by
  rw [byteBits_eq, length_flatMap_bits, List.length_map]

theorem toNat_lt_of_mem (bytes : Bytes) : ∀ v ∈ bytes.map UInt8.toNat, v < 2 ^ 8 := by
  intro _ hmem
  obtain ⟨b, _, rfl⟩ := List.mem_map.mp hmem
  exact b.toNat_lt

/-- The five-bit values of bytes have the bits of the bytes, and zeros up to the next value. -/
theorem flatMap_bits_toFives (bytes : Bytes) :
    (toFives bytes).flatMap (bits 5) =
      byteBits bytes ++ List.replicate ((5 - (byteBits bytes).length % 5) % 5) false := by
  refine flatMap_bits_groups (by omega) _ ?_
  rw [List.length_append, List.length_replicate]
  omega

/-- Values hold bytes if they have their bits, and less than a byte after them. -/
theorem ofFives_eq_iff_bits {values : List Nat} {bytes : Bytes} :
    ofFives values = bytes ↔ ∃ rest, rest.length < 8 ∧ values.flatMap (bits 5) = byteBits bytes ++ rest := by
  constructor
  · rintro rfl
    obtain ⟨rest, hrest, hbits⟩ := @exists_flatMap_bits_groups 8 (by omega) (values.flatMap (bits 5))
    refine ⟨rest, hrest, hbits.trans ?_⟩
    rw [byteBits_eq, ofFives, List.map_map]
    have hall : (groups 8 (values.flatMap (bits 5))).map (UInt8.toNat ∘ UInt8.ofNat) =
        groups 8 (values.flatMap (bits 5)) := by
      refine (List.map_congr_left fun v hmem => ?_).trans (List.map_id _)
      exact UInt8.toNat_ofNat'.trans (Nat.mod_eq_of_lt (groups_lt _ v hmem))
    rw [hall]
  · rintro ⟨rest, hrest, hbits⟩
    rw [ofFives, hbits, byteBits_eq, groups_flatMap_bits (toNat_lt_of_mem bytes) hrest, List.map_map]
    refine (List.map_congr_left fun b _ => ?_).trans (List.map_id bytes)
    exact UInt8.ofNat_toNat

/-- Bytes survive the regrouping of their bits. -/
theorem ofFives_toFives (bytes : Bytes) : ofFives (toFives bytes) = bytes := by
  refine ofFives_eq_iff_bits.mpr ⟨_, ?_, flatMap_bits_toFives bytes⟩
  rw [List.length_replicate]
  omega

/-- Bytes of which the bits fill their values are held by these values and by one more, whatever that one is. -/
theorem ofFives_eq_iff {values : List Nat} (hvalues : ∀ v ∈ values, v < 32) {bytes : Bytes}
    (hbytes : bytes.length % 5 = 0) :
    ofFives values = bytes ↔
      values = toFives bytes ∨ ∃ extra, extra < 32 ∧ values = toFives bytes ++ [extra] := by
  have hlength := length_byteBits bytes
  have hfives : (toFives bytes).flatMap (bits 5) = byteBits bytes := by
    have hnone : (5 - (byteBits bytes).length % 5) % 5 = 0 := by omega
    rw [flatMap_bits_toFives, hnone, List.replicate_zero, List.append_nil]
  rw [ofFives_eq_iff_bits]
  constructor
  · rintro ⟨rest, hrest, hbits⟩
    have hcount := congrArg List.length hbits
    rw [length_flatMap_bits, List.length_append, hlength] at hcount
    -- Both the bits of the values and those of the bytes come in fives, and there are less than eight more.
    rcases (by omega : rest.length = 0 ∨ rest.length = 5) with hnil | hfive
    · rw [List.length_eq_zero_iff.mp hnil, List.append_nil] at hbits
      exact .inl (@flatMap_bits_inj 5 (by omega) _ _ hvalues (groups_lt _) (hbits.trans hfives.symm))
    · have hlast := ofBits_lt rest
      have hspelled := bits_ofBits rest
      rw [hfive] at hlast hspelled
      refine .inr ⟨ofBits rest, hlast, @flatMap_bits_inj 5 (by omega) _ _ hvalues ?_ ?_⟩
      · exact List.forall_mem_append.mpr ⟨groups_lt _, List.forall_mem_singleton.mpr hlast⟩
      · rw [List.flatMap_append, hfives, List.flatMap_singleton, hspelled, hbits]
  · rintro (rfl | ⟨extra, _, rfl⟩)
    · exact ⟨[], by decide, by rw [hfives, List.append_nil]⟩
    · refine ⟨bits 5 extra, ?_, by rw [List.flatMap_append, hfives, List.flatMap_singleton]⟩
      rw [length_bits]
      omega

/-- There are not many more values than it takes for the bits. -/
theorem length_toFives_le (bytes : Bytes) : 5 * (toFives bytes).length ≤ 8 * bytes.length + 4 := by
  have hlength := length_byteBits bytes
  rw [← length_flatMap_bits, flatMap_bits_toFives, List.length_append, List.length_replicate]
  omega

/-! ## The remainder is linear -/

/-- What one bit that is shifted out contributes. -/
def feedback (state i : Nat) : Nat :=
  if state.testBit (25 + i) then generator.getD i 0 else 0

theorem feedback_xor (a b i : Nat) : feedback (a ^^^ b) i = feedback a i ^^^ feedback b i := by
  unfold feedback
  rw [Nat.testBit_xor]
  cases a.testBit (25 + i) <;> cases b.testBit (25 + i) <;> simp

/-- A step as an exclusive or of contributions. -/
theorem polymodStep_eq (state value : Nat) :
    polymodStep state value = (state % 2 ^ 25) * 32 ^^^ value ^^^ feedback state 0 ^^^ feedback state 1 ^^^
      feedback state 2 ^^^ feedback state 3 ^^^ feedback state 4 := by
  have hbit : ∀ s i : Nat,
      (if (state >>> 25).testBit i then s ^^^ generator.getD i 0 else s) = s ^^^ feedback state i := by
    intro s i
    rw [feedback, Nat.testBit_shiftRight]
    split
    · rfl
    · exact (Nat.xor_zero s).symm
  have hrange : List.range 5 = [0, 1, 2, 3, 4] := rfl
  have hlow : (0x2000000 : Nat) = 2 ^ 25 := rfl
  rw [polymodStep, hrange, hlow]
  simp only [hbit, List.foldl_cons, List.foldl_nil]

theorem polymodStep_xor (a b v w : Nat) :
    polymodStep (a ^^^ b) (v ^^^ w) = polymodStep a v ^^^ polymodStep b w := by
  have hshift : (a ^^^ b) % 2 ^ 25 * 32 = (a % 2 ^ 25) * 32 ^^^ (b % 2 ^ 25) * 32 := by
    have hscale : ∀ n : Nat, n * 32 = n <<< 5 := fun n => (Nat.shiftLeft_eq n 5).symm
    rw [Nat.xor_mod_two_pow, hscale, hscale, hscale, Nat.shiftLeft_xor_distrib]
  simp only [polymodStep_eq, feedback_xor, hshift]
  ac_rfl

/-- What a part contributes does not depend on what came before it. -/
theorem foldl_polymodStep_xor (values : List Nat) (state other : Nat) :
    values.foldl polymodStep (state ^^^ other) =
      (List.replicate values.length 0).foldl polymodStep state ^^^ values.foldl polymodStep other := by
  induction values generalizing state other with
  | nil => rfl
  | cons v rest ih =>
    have hstep := polymodStep_xor state other 0 v
    rw [Nat.zero_xor] at hstep
    rw [List.foldl_cons, List.length_cons, List.replicate_succ, List.foldl_cons, List.foldl_cons, hstep, ih]

/-! ## The number that a checksum spells -/

theorem mul_xor_eq_add {state value : Nat} (h : value < 32) : state * 32 ^^^ value = state * 32 + value := by
  have hmul : state * 32 = 2 ^ 5 * state := Nat.mul_comm _ _
  rw [hmul]
  refine Nat.eq_of_testBit_eq fun i => ?_
  rw [Nat.testBit_xor, Nat.testBit_two_pow_mul_add _ h, Nat.testBit_two_pow_mul]
  by_cases hi : i < 5
  · simp [hi, Nat.not_le.mpr hi]
  · have hvalue : value.testBit i = false :=
      Nat.testBit_lt_two_pow (Nat.lt_of_lt_of_le h (Nat.pow_le_pow_right (n := 2) (by omega) (Nat.not_lt.mp hi)))
    simp [hi, Nat.not_lt.mp hi, hvalue]

/-- As long as nothing is shifted out, a step appends a digit. -/
theorem polymodStep_of_lt {state value : Nat} (hstate : state < 2 ^ 25) (hvalue : value < 32) :
    polymodStep state value = state * 32 + value := by
  have hnone : ∀ i, feedback state i = 0 := by
    intro i
    have hlt : state < 2 ^ (25 + i) := Nat.lt_of_lt_of_le hstate (Nat.pow_le_pow_right (by omega) (by omega))
    simp [feedback, Nat.testBit_lt_two_pow hlt]
  rw [polymodStep_eq, hnone, hnone, hnone, hnone, hnone, Nat.mod_eq_of_lt hstate, mul_xor_eq_add hvalue]
  simp

/-- At most six values spell a number. -/
theorem foldl_polymodStep_zero {values : List Nat} (hvalues : ∀ v ∈ values, v < 32) (hlength : values.length ≤ 6) :
    values.foldl polymodStep 0 = Radix.value 32 values := by
  have hprefix : ∀ (values : List Nat) (state k : Nat), (∀ v ∈ values, v < 32) → values.length + k ≤ 6 →
      state < 32 ^ k → values.foldl polymodStep state = values.foldl (fun n d => n * 32 + d) state := by
    intro values
    induction values with
    | nil => intros; rfl
    | cons v rest ih =>
      intro state k hvalues hlength hstate
      obtain ⟨hfirst, hrest⟩ := List.forall_mem_cons.mp hvalues
      rw [List.length_cons] at hlength
      have hsmall : state < 2 ^ 25 := calc
        state < 32 ^ k := hstate
        _ ≤ 32 ^ 5 := Nat.pow_le_pow_right (by omega) (by omega)
        _ = 2 ^ 25 := rfl
      rw [List.foldl_cons, List.foldl_cons, polymodStep_of_lt hsmall hfirst]
      refine ih _ (k + 1) hrest (by omega) ?_
      rw [Nat.pow_succ]
      omega
  exact hprefix values 0 0 hvalues (by omega) (by omega)

/-- As many digits spell another number if they are others. -/
theorem value_inj {a b : List Nat} (ha : ∀ d ∈ a, d < 32) (hb : ∀ d ∈ b, d < 32) (hlength : a.length = b.length)
    (h : Radix.value 32 a = Radix.value 32 b) : a = b := by
  have hstep : ∀ (a b : List Nat) (n m : Nat), (∀ d ∈ a, d < 32) → (∀ d ∈ b, d < 32) → a.length = b.length →
      a.foldl (fun n d => n * 32 + d) n = b.foldl (fun n d => n * 32 + d) m → n = m ∧ a = b := by
    intro a
    induction a with
    | nil =>
      intro b n m _ _ hlength h
      rw [List.eq_nil_of_length_eq_zero hlength.symm] at h ⊢
      exact ⟨h, rfl⟩
    | cons d rest ih =>
      rintro (_ | ⟨e, others⟩) n m ha hb hlength h
      · cases hlength
      · obtain ⟨hd, hrest⟩ := List.forall_mem_cons.mp ha
        obtain ⟨he, hothers⟩ := List.forall_mem_cons.mp hb
        obtain ⟨hsum, rfl⟩ := ih others _ _ hrest hothers (Nat.succ.inj hlength) h
        have hdigit : n = m ∧ d = e := by
          change n * 32 + d = m * 32 + e at hsum
          omega
        exact ⟨hdigit.1, by rw [hdigit.2]⟩
  exact (hstep a b 0 0 ha hb hlength h).2

/-- The six digits of a number. -/
theorem value_digits_six {n : Nat} (h : n < 2 ^ 30) :
    Radix.value 32 ((List.range 6).map fun i => n >>> (5 * (5 - i)) % 32) = n := by
  have hrange : List.range 6 = [0, 1, 2, 3, 4, 5] := rfl
  rw [hrange]
  simp only [Radix.value, List.map_cons, List.map_nil, List.foldl_cons, List.foldl_nil, Nat.shiftRight_eq_div_pow]
  omega

/-! ## The checksum -/

theorem feedback_lt (state i : Nat) : feedback state i < 2 ^ 30 := by
  have hall : ∀ g ∈ generator, g < 2 ^ 30 := by decide
  unfold feedback
  split
  · rw [List.getD_eq_getElem?_getD]
    cases h : generator[i]? with
    | none => simp
    | some g => exact hall g (List.mem_of_getElem? h)
  · omega

theorem polymodStep_lt {state value : Nat} (h : value < 2 ^ 30) : polymodStep state value < 2 ^ 30 := by
  rw [polymodStep_eq]
  have hshifted : state % 2 ^ 25 * 32 < 2 ^ 30 := by omega
  refine Nat.xor_lt_two_pow (Nat.xor_lt_two_pow (Nat.xor_lt_two_pow (Nat.xor_lt_two_pow (Nat.xor_lt_two_pow
    (Nat.xor_lt_two_pow hshifted h) ?_) ?_) ?_) ?_) ?_ <;> exact feedback_lt _ _

theorem checksum_lt (label : List Char) (data : List Nat) : ∀ v ∈ checksum label data, v < 32 := by
  intro _ hmem
  obtain ⟨i, _, rfl⟩ := List.mem_map.mp hmem
  exact Nat.mod_lt _ (by omega)

/-- Six values at the end contribute the number they spell. -/
theorem polymod_append_six (front : List Nat) {last : List Nat} (hlast : ∀ v ∈ last, v < 32)
    (hlength : last.length = 6) :
    polymod (front ++ last) = polymod (front ++ List.replicate 6 0) ^^^ Radix.value 32 last := by
  have hlinear := foldl_polymodStep_xor last (polymod front) 0
  rw [Nat.xor_zero, hlength, foldl_polymodStep_zero hlast (Nat.le_of_eq hlength)] at hlinear
  rw [polymod, List.foldl_append, polymod, List.foldl_append]
  exact hlinear

theorem value_checksum (label : List Char) (data : List Nat) :
    Radix.value 32 (checksum label data) =
      polymod (labelValues label ++ data ++ List.replicate 6 0) ^^^ residue := by
  have hremainder : polymod (labelValues label ++ data ++ List.replicate 6 0) < 2 ^ 30 := by
    have hlast : List.replicate 6 0 = List.replicate 5 0 ++ [0] := rfl
    rw [hlast, ← List.append_assoc, polymod, List.foldl_append, List.foldl_cons, List.foldl_nil]
    exact polymodStep_lt (by omega)
  exact value_digits_six (Nat.xor_lt_two_pow hremainder (by decide))

/-- The remainder of a text with its checksum. -/
theorem polymod_checksum (label : List Char) (data : List Nat) :
    polymod (labelValues label ++ data ++ checksum label data) = residue := by
  rw [polymod_append_six _ (checksum_lt label data) (length_checksum label data), value_checksum, ← Nat.xor_assoc,
    Nat.xor_self, Nat.zero_xor]

/-- No other six values complete a text. -/
theorem eq_checksum {label : List Char} {data last : List Nat} (hlast : ∀ v ∈ last, v < 32)
    (hlength : last.length = 6) (h : polymod (labelValues label ++ data ++ last) = residue) :
    last = checksum label data := by
  refine value_inj hlast (checksum_lt label data) (by rw [hlength, length_checksum]) ?_
  rw [polymod_append_six _ hlast hlength] at h
  rw [value_checksum, ← h, ← Nat.xor_assoc, Nat.xor_self, Nat.zero_xor]

end Vtxo.Bech32m
