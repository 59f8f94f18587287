import ChainScript.Hex

/-! Reading hexadecimal text back. The case of a letter does not count. -/
namespace ChainScript.Hex

def nibbles (b : UInt8) : List UInt8 := [b >>> 4, b &&& 15]

theorem high_or_low (b : UInt8) : b >>> 4 <<< 4 ||| b &&& 15 = b := by
  have hall : ∀ n : Fin 256,
      UInt8.ofNat n >>> 4 <<< 4 ||| UInt8.ofNat n &&& 15 = UInt8.ofNat n := by decide +kernel
  have h := hall ⟨b.toNat, b.toNat_lt⟩
  rwa [UInt8.ofNat_toNat] at h

theorem high_lt (b : UInt8) : (b >>> 4).toNat < 16 := by
  have hb := b.toNat_lt
  have hdiv : (b >>> 4).toNat = b.toNat / 16 := by
    rw [UInt8.toNat_shiftRight, Nat.shiftRight_eq_div_pow]
    rfl
  omega

theorem low_lt (b : UInt8) : (b &&& 15).toNat < 16 := by
  rw [UInt8.toNat_and]
  exact Nat.lt_of_le_of_lt Nat.and_le_right (by decide)

theorem length_flatMap_nibbles (bytes : Bytes) :
    (bytes.flatMap nibbles).length = 2 * bytes.length := by
  induction bytes with
  | nil => rfl
  | cons b bytes ih =>
    rw [List.flatMap_cons, List.length_append, ih, List.length_cons]
    change 2 + 2 * bytes.length = _
    omega

theorem joinOnto_nibbles (done bytes : Bytes) :
    joinOnto done (bytes.flatMap nibbles) = bytes.reverse ++ done := by
  induction bytes generalizing done with
  | nil => rfl
  | cons b bytes ih =>
    change joinOnto ((b >>> 4 <<< 4 ||| b &&& 15) :: done) (bytes.flatMap nibbles) = _
    rw [ih, high_or_low, List.reverse_cons, List.append_assoc, List.singleton_append]

/-- A character is its capital, or the small letter that lies 32 places above it. -/
theorem eq_of_toUpper_eq {c d : Char} (h : c.toUpper = d) :
    c = d ∨ 65 ≤ d.toNat ∧ c = Char.ofNat (d.toNat + 32) := by
  subst h
  by_cases hsmall : 'a'.val ≤ c.val ∧ c.val ≤ 'z'.val
  · obtain ⟨hvalid, hupper⟩ : ∃ hvalid, c.toUpper = ⟨c.val + ('A'.val - 'a'.val), hvalid⟩ :=
      ⟨_, dif_pos hsmall⟩
    have hlow : 97 ≤ c.toNat := hsmall.1
    have hhigh : c.toNat ≤ 122 := hsmall.2
    have hcapital : c.toUpper.toNat = c.toNat - 32 := by
      rw [hupper, Char.toNat, UInt32.toNat_add]
      change (c.toNat + 4294967264) % 4294967296 = _
      omega
    rw [hcapital, Nat.sub_add_cancel (by omega)]
    exact .inr ⟨by omega, (Char.ofNat_toNat c).symm⟩
  · have hsame : c.toUpper = c := dif_neg hsmall
    exact .inl hsame.symm

/-- Either letter for a digit is one byte, and the byte has the digit's value. -/
theorem values_of_toUpper {c : Char} {n : UInt8} (hn : n.toNat < 16)
    (h : c.toUpper = digit 'A' n) : (String.utf8EncodeChar c).map digitValue? = [some n] := by
  have hcapital : ∀ k : Fin 16,
      (String.utf8EncodeChar (digit 'A' (UInt8.ofNat k))).map digitValue? =
        [some (UInt8.ofNat k)] := by decide
  have hsmall : ∀ k : Fin 16, 65 ≤ (digit 'A' (UInt8.ofNat k)).toNat →
      (String.utf8EncodeChar (Char.ofNat ((digit 'A' (UInt8.ofNat k)).toNat + 32))).map
        digitValue? = [some (UInt8.ofNat k)] := by decide
  have hback : UInt8.ofNat n.toNat = n := UInt8.ofNat_toNat
  rcases eq_of_toUpper_eq h with rfl | ⟨hletter, rfl⟩
  · have hvalue := hcapital ⟨n.toNat, hn⟩
    rwa [hback] at hvalue
  · have hvalue := hsmall ⟨n.toNat, hn⟩
    rw [hback] at hvalue
    exact hvalue hletter

/-- Characters that are the digits of some bytes in either case have the values of those digits. -/
theorem values_of_map_toUpper (bytes : Bytes) {chars : List Char}
    (h : chars.map Char.toUpper = bytes.flatMap (pair 'A')) :
    (chars.flatMap String.utf8EncodeChar).map digitValue? = (bytes.flatMap nibbles).map some := by
  induction bytes generalizing chars with
  | nil =>
    obtain rfl := List.map_eq_nil_iff.1 h
    rfl
  | cons b bytes ih =>
    obtain ⟨high, afterHigh, rfl, hhigh, h⟩ := List.map_eq_cons_iff.1 h
    obtain ⟨low, rest, rfl, hlow, h⟩ := List.map_eq_cons_iff.1 h
    have hhigh := values_of_toUpper (high_lt b) hhigh
    have hlow := values_of_toUpper (low_lt b) hlow
    rw [List.flatMap_cons, List.flatMap_cons, List.map_append, List.map_append, hhigh, hlow, ih h]
    rfl

theorem toUpper_digit {letters : Char} (hletters : letters = 'a' ∨ letters = 'A') {n : UInt8}
    (hn : n.toNat < 16) : (digit letters n).toUpper = digit 'A' n := by
  have hall : ∀ k : Fin 16, (digit 'a' (UInt8.ofNat k)).toUpper = digit 'A' (UInt8.ofNat k) ∧
      (digit 'A' (UInt8.ofNat k)).toUpper = digit 'A' (UInt8.ofNat k) := by decide
  have h := hall ⟨n.toNat, hn⟩
  rw [UInt8.ofNat_toNat] at h
  rcases hletters with rfl | rfl
  · exact h.1
  · exact h.2

theorem map_toUpper_pairs {letters : Char} (hletters : letters = 'a' ∨ letters = 'A')
    (bytes : Bytes) :
    (bytes.flatMap (pair letters)).map Char.toUpper = bytes.flatMap (pair 'A') := by
  induction bytes with
  | nil => rfl
  | cons b bytes ih =>
    have hpair : (pair letters b).map Char.toUpper = pair 'A' b := by
      simp only [pair, List.map_cons, List.map_nil, toUpper_digit hletters (high_lt b),
        toUpper_digit hletters (low_lt b)]
    rw [List.flatMap_cons, List.map_append, hpair, ih, List.flatMap_cons]

theorem toUpper_upper (bytes : Bytes) : (upper bytes).toUpper = upper bytes := by
  rw [← String.toList_inj, String.toUpper, String.toList_map, upper, String.toList_ofList,
    map_toUpper_pairs (.inr rfl)]

theorem toUpper_lower (bytes : Bytes) : (lower bytes).toUpper = upper bytes := by
  rw [← String.toList_inj, String.toUpper, String.toList_map, lower, upper, String.toList_ofList,
    String.toList_ofList, map_toUpper_pairs (.inl rfl)]

/-- A text that holds the digits of some bytes, each with its value, reads as those bytes. -/
theorem decode_of_values {s : String} {bytes : Bytes}
    (h : (utf8 s).map digitValue? = (bytes.flatMap nibbles).map some) : decode s = .ok bytes := by
  have hdigits : (utf8 s).filterMap digitValue? = bytes.flatMap nibbles := by
    have hid := congrArg (List.filterMap id) h
    rwa [List.filterMap_map, List.filterMap_map, Function.id_comp, Function.id_comp,
      List.filterMap_some] at hid
  have hlength : (utf8 s).length = 2 * bytes.length := by
    have hcount := congrArg List.length h
    rwa [List.length_map, List.length_map, length_flatMap_nibbles] at hcount
  have hall : ∀ b ∈ utf8 s, isDigit b := by
    intro b hb
    have hmem : digitValue? b ∈ (utf8 s).map digitValue? := List.mem_map_of_mem hb
    rw [h] at hmem
    obtain ⟨n, -, hn⟩ := List.mem_map.1 hmem
    rw [isDigit, ← hn]
    rfl
  have hnone : (utf8 s).find? (fun b => !isDigit b) = none := by simpa using hall
  have heven : ¬ (utf8 s).length % 2 = 1 := by omega
  rw [decode, if_neg heven, hnone]
  change Except.ok (joinOnto [] ((utf8 s).filterMap digitValue?)).reverse = _
  rw [hdigits, joinOnto_nibbles, List.append_nil, List.reverse_reverse]

/-- The digits of some bytes read as those bytes, whatever the case of each letter. -/
theorem decode_of_toUpper {s : String} {bytes : Bytes}
    (h : s.toUpper = (upper bytes).toUpper) : decode s = .ok bytes := by
  rw [toUpper_upper] at h
  have hchars : s.toList.map Char.toUpper = bytes.flatMap (pair 'A') := by
    rw [← String.toList_map]
    exact (congrArg String.toList h).trans String.toList_ofList
  exact decode_of_values (values_of_map_toUpper bytes hchars)

theorem decode_lower (bytes : Bytes) : decode (lower bytes) = .ok bytes := by
  apply decode_of_toUpper
  rw [toUpper_lower, toUpper_upper]

theorem lower_inj {bytes other : Bytes} : lower bytes = lower other ↔ bytes = other := by
  refine ⟨fun h => ?_, congrArg lower⟩
  have hdecode := decode_lower bytes
  rw [h, decode_lower] at hdecode
  exact (Except.ok.inj hdecode).symm

end ChainScript.Hex
