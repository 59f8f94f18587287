import ChainScript.Text.SingleByte

/-! Texts of one byte per character: which texts have bytes, and that text and bytes determine
each other. -/
namespace ChainScript.Text.SingleByte

theorem toNat_ofNat_of_lt {n : Nat} (h : n < 256) : (Char.ofNat n).toNat = n := by
  have hvalid : n.isValidChar := by left; omega
  have hchar : Char.ofNat n = Char.ofNatAux n hvalid := dif_pos hvalid
  rw [hchar]
  exact UInt32.toNat_ofNatLT

theorem ofNat_toUInt8_toNat {c : Char} (h : fits c) : Char.ofNat c.toNat.toUInt8.toNat = c := by
  have hlt : c.toNat < 256 := by simpa [fits] using h
  have hbyte : c.toNat.toUInt8.toNat = c.toNat := UInt8.toNat_ofNat_of_lt hlt
  rw [hbyte, Char.ofNat_toNat]

/-- A text has bytes just if no character of it is too large, and they are its code points. -/
theorem encode_eq_ok_iff {s : String} {bytes : Bytes} :
    encode s = .ok bytes ↔
      (∀ c ∈ s.toList, fits c) ∧ bytes = s.toList.map fun c => c.toNat.toUInt8 := by
  rw [encode]
  split
  next c hc =>
    have hmem := List.mem_of_find?_eq_some hc
    have hbad := List.find?_some hc
    simp only [reduceCtorEq, false_iff, not_and]
    intro hall
    simp [hall c hmem] at hbad
  next hnone =>
    have hall : ∀ c ∈ s.toList, fits c := by simpa using hnone
    simp only [Except.ok.injEq]
    exact ⟨fun h => ⟨hall, h.symm⟩, fun h => h.2.symm⟩

/-- A text is refused for its first character that is too large. -/
theorem encode_eq_error_iff {s : String} {c : Char} :
    encode s = .error c ↔ ∃ front back, s.toList = front ++ c :: back ∧
      (∀ d ∈ front, d.toNat ≤ 0xFF) ∧ 0xFF < c.toNat := by
  have hfind : encode s = .error c ↔ s.toList.find? (fun d => !fits d) = some c := by
    rw [encode]
    cases s.toList.find? (fun d => !fits d) <;> simp
  have hbad (d : Char) : (!fits d) = true ↔ 0xFF < d.toNat := by
    simp only [fits, Bool.not_eq_true', decide_eq_false_iff_not]
    omega
  have hgood (d : Char) : (!!fits d) = true ↔ d.toNat ≤ 0xFF := by
    simp only [fits, Bool.not_not, decide_eq_true_eq]
    omega
  rw [hfind, List.find?_eq_some_iff_append]
  simp only [hbad, hgood]
  constructor
  · rintro ⟨hc, front, back, hsplit, hfront⟩
    exact ⟨front, back, hsplit, hfront, hc⟩
  · rintro ⟨front, back, hsplit, hfront, hc⟩
    exact ⟨hc, front, back, hsplit, hfront⟩

theorem decode_encode {s : String} {bytes : Bytes} (h : encode s = .ok bytes) :
    decode bytes = s := by
  obtain ⟨hfits, rfl⟩ := encode_eq_ok_iff.1 h
  have hsame : s.toList.map (fun c => Char.ofNat c.toNat.toUInt8.toNat) = s.toList.map id :=
    List.map_congr_left fun c hc => ofNat_toUInt8_toNat (hfits c hc)
  rw [decode, List.map_map, Function.comp_def, hsame, List.map_id, String.ofList_toList]

theorem encode_decode (bytes : Bytes) : encode (decode bytes) = .ok bytes := by
  refine encode_eq_ok_iff.2 ⟨?_, ?_⟩
  · intro c hc
    simp only [decode, String.toList_ofList, List.mem_map] at hc
    obtain ⟨b, -, rfl⟩ := hc
    simpa [fits, toNat_ofNat_of_lt b.toNat_lt] using b.toNat_lt
  · have hback : ((fun c : Char => c.toNat.toUInt8) ∘ fun b : UInt8 => Char.ofNat b.toNat) = id :=
      funext fun b => by
        rw [Function.comp, toNat_ofNat_of_lt b.toNat_lt, Nat.toUInt8, UInt8.ofNat_toNat, id]
    rw [decode, String.toList_ofList, List.map_map, hback, List.map_id]

theorem length_of_encode {s : String} {bytes : Bytes} (h : encode s = .ok bytes) :
    bytes.length = s.length := by
  obtain ⟨-, rfl⟩ := encode_eq_ok_iff.1 h
  rw [List.length_map, String.length_toList]

end ChainScript.Text.SingleByte
