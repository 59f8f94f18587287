import ChainScript.Proofs.Text.SingleLine

/-! Texts that can be taken apart in one way only. A front of characters of one class ends where the
first other character comes, and pieces can be told apart one after the other where no piece goes on
as another one. So numbers, bytes and quoted texts are known from how they are written. -/
namespace ChainScript.Text

section
variable {p : Char → Bool} {front other back rest : List Char}

theorem takeWhile_front (hfront : ∀ c ∈ front, p c) (hback : ∀ c ∈ back.head?, p c = false) :
    (front ++ back).takeWhile p = front := by
  rw [List.takeWhile_append_of_pos hfront]
  cases back with
  | nil => simp
  | cons c back => simp [hback c rfl]

/-- The fronts end at the same place, so the backs start there. -/
theorem parts_unique (hfront : ∀ c ∈ front, p c) (hother : ∀ c ∈ other, p c)
    (hback : ∀ c ∈ back.head?, p c = false) (hrest : ∀ c ∈ rest.head?, p c = false)
    (h : front ++ back = other ++ rest) : front = other ∧ back = rest := by
  have hsame : front = other := by
    rw [← takeWhile_front hfront hback, h, takeWhile_front hother hrest]
  subst hsame
  exact ⟨rfl, List.append_cancel_left h⟩

end

/-- No piece goes on as another one, whatever comes behind either. -/
def PrefixFree (piece : α → List β) : Prop :=
  ∀ ⦃a b back rest⦄, piece a ++ back = piece b ++ rest → a = b ∧ back = rest

theorem PrefixFree.flatMap_inj {piece : α → List β} (hfree : PrefixFree piece)
    (hne : ∀ a, piece a ≠ []) {as bs : List α} (h : as.flatMap piece = bs.flatMap piece) :
    as = bs := by
  induction as generalizing bs with
  | nil =>
    cases bs with
    | nil => rfl
    | cons b bs => simp [hne] at h
  | cons a as ih =>
    cases bs with
    | nil => simp [hne] at h
    | cons b bs =>
      obtain ⟨hhead, htail⟩ := hfree h
      rw [hhead, ih htail]

theorem digitChar_inj {m n : Nat} (hm : m < 16) (hn : n < 16) (h : m.digitChar = n.digitChar) :
    m = n := by
  have hall : ∀ i j : Fin 16, Nat.digitChar i = Nat.digitChar j → i = j := by decide
  exact congrArg Fin.val (hall ⟨m, hm⟩ ⟨n, hn⟩ h)

/-- The last digit is the remainder, and the digits in front of it are those of the quotient. -/
theorem toDigits_inj {base m n : Nat} (hbase : 1 < base) (hle : base ≤ 16)
    (h : Nat.toDigits base m = Nat.toDigits base n) : m = n := by
  have hone {k l : Nat} (hk : k < base) (hl : ¬ l < base) :
      Nat.toDigits base k ≠ Nat.toDigits base l := by
    simp [Nat.toDigits_of_lt_base hk, Nat.toDigits_of_base_le hbase (Nat.le_of_not_lt hl),
      List.singleton_eq_append_iff, Nat.toDigits_ne_nil]
  induction m using Nat.strongRecOn generalizing n with
  | ind m ih =>
    by_cases hm : m < base
    · by_cases hn : n < base
      · rw [Nat.toDigits_of_lt_base hm, Nat.toDigits_of_lt_base hn] at h
        exact digitChar_inj (by omega) (by omega) (by simpa using h)
      · exact absurd h (hone hm hn)
    · by_cases hn : n < base
      · exact absurd h.symm (hone hn hm)
      · rw [Nat.toDigits_of_base_le hbase (Nat.le_of_not_lt hm),
          Nat.toDigits_of_base_le hbase (Nat.le_of_not_lt hn)] at h
        obtain ⟨hhigh, hlow⟩ := List.append_inj' h rfl
        have hquotient : m / base = n / base :=
          ih (m / base) (Nat.div_lt_self (by omega) hbase) hhigh
        have hm' := Nat.mod_lt m (Nat.zero_lt_of_lt hbase)
        have hn' := Nat.mod_lt n (Nat.zero_lt_of_lt hbase)
        have hremainder : m % base = n % base :=
          digitChar_inj (by omega) (by omega) (by simpa using hlow)
        rw [← Nat.div_add_mod m base, hquotient, hremainder, Nat.div_add_mod]

@[simp] theorem repr_inj {m n : Nat} : m.repr = n.repr ↔ m = n := by
  rw [← String.toList_inj, Nat.toList_repr, Nat.toList_repr]
  exact ⟨toDigits_inj (by decide) (by decide), congrArg (Nat.toDigits 10)⟩

def letterEscapes : List (Char × Char) :=
  [('\x00', '0'), ('\t', 't'), ('\n', 'n'), ('\r', 'r'), ('\\', '\\'), ('"', '"')]

inductive Escaped (c : Char) : List Char → Prop where
  | letter {letter} : (c, letter) ∈ letterEscapes → Escaped c ['\\', letter]
  | codePoint : Escaped c (codePointEscape c)
  | bare : c ≠ '\\' → Escaped c [c]

theorem escaped_escape (c : Char) : Escaped c (escape '"' c) := by
  have hletter {d l : Char} (h : c = d) (hl : (d, l) ∈ letterEscapes) : Escaped c ['\\', l] :=
    .letter (h ▸ hl)
  unfold escape
  split
  next h => exact hletter h (by decide)
  split
  next h => exact hletter h (by decide)
  split
  next h => exact hletter h (by decide)
  split
  next h => exact hletter h (by decide)
  split
  next h =>
    apply Escaped.letter
    rcases h with rfl | rfl <;> decide
  next h =>
    split
    next => exact .codePoint
    next => exact .bare fun hc => h (.inl hc)

/-- The brace behind the digits is none of them. -/
theorem codePointEscape_inj {c d : Char} {back rest : List Char}
    (h : codePointEscape c ++ back = codePointEscape d ++ rest) : c = d ∧ back = rest := by
  have hdigits (n : Nat) : ∀ x ∈ Nat.toDigits 16 n, x != '\x7d' := by
    have hbrace : '\x7d' ∉ Nat.toDigits 16 n :=
      notMem_toDigits (fun _ => (Nat.digitChar_ne '\x7d' rfl).symm) (by decide) n
    intro x hx
    rw [bne_iff_ne]
    exact fun he => hbrace (he ▸ hx)
  simp only [codePointEscape, List.append_assoc, List.append_cancel_left_eq] at h
  obtain ⟨hsame, hback⟩ := parts_unique (hdigits _) (hdigits _) (by simp) (by simp) h
  exact ⟨Char.toNat_inj.1 (toDigits_inj (by decide) (by decide) hsame), by simpa using hback⟩

/-- Which way a character is escaped shows in its first two characters. -/
theorem Escaped.unique {c d : Char} {x y back rest : List Char} (hc : Escaped c x)
    (hd : Escaped d y) (h : x ++ back = y ++ rest) : c = d ∧ back = rest := by
  have hinj : ∀ e ∈ letterEscapes, ∀ f ∈ letterEscapes, e.2 = f.2 → e.1 = f.1 := by decide
  have hcode : ∀ e ∈ letterEscapes, e.2 ≠ 'u' := by decide
  cases hc with
  | letter hletter =>
    cases hd with
    | letter hother =>
      simp at h
      exact ⟨hinj _ hletter _ hother h.1, h.2⟩
    | codePoint =>
      simp [codePointEscape] at h
      exact absurd h.1 (hcode _ hletter)
    | bare hne =>
      simp at h
      exact absurd h.1.symm hne
  | codePoint =>
    cases hd with
    | letter hother =>
      simp [codePointEscape] at h
      exact absurd h.1.symm (hcode _ hother)
    | codePoint => exact codePointEscape_inj h
    | bare hne =>
      simp [codePointEscape] at h
      exact absurd h.1.symm hne
  | bare hne =>
    cases hd with
    | letter =>
      simp at h
      exact absurd h.1 hne
    | codePoint =>
      simp [codePointEscape] at h
      exact absurd h.1 hne
    | bare => simpa using h

theorem prefixFree_escape : PrefixFree (escape '"') :=
  fun c d _ _ h => (escaped_escape c).unique (escaped_escape d) h

theorem escape_ne_nil (quote c : Char) : escape quote c ≠ [] := by
  unfold escape
  repeat' split
  all_goals simp [codePointEscape]

theorem quoted_inj {s t : String} : quoted s = quoted t ↔ s = t := by
  refine ⟨fun h => ?_, congrArg quoted⟩
  have hbody : s.toList.flatMap (escape '"') = t.toList.flatMap (escape '"') := by
    simpa [quoted] using congrArg String.toList h
  exact String.toList_inj.1 (prefixFree_escape.flatMap_inj (escape_ne_nil '"') hbody)

end ChainScript.Text
