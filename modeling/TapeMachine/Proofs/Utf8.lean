import Mathlib.Tactic
import TapeMachine.Text.Utf8

namespace TapeMachine.Utf8

theorem toList_loop_eq (bs : ByteArray) (i : Nat) (r : List UInt8) :
    ByteArray.toList.loop bs i r = r.reverse ++ bs.data.toList.drop i := by
  fun_induction ByteArray.toList.loop bs i r with
  | case1 i r h ih =>
    have hi : i < bs.data.toList.length := by simpa using h
    rw [ih, List.drop_eq_getElem_cons (l := bs.data.toList) hi]
    simp [ByteArray.get!, h]
  | case2 i r h =>
    rw [List.drop_eq_nil_of_le (by simpa using Nat.le_of_not_lt h)]
    simp

theorem encode_eq (s : String) : encode s = s.toByteArray.data.toList := by
  show s.toByteArray.toList = _
  rw [ByteArray.toList, toList_loop_eq]
  simp

theorem encode_ofList (cs : List Char) : encode (String.ofList cs) = cs.flatMap String.utf8EncodeChar := by
  rw [encode_eq, String.toByteArray_ofList, List.utf8Encode, List.toList_data_toByteArray]

theorem encode_append (s t : String) : encode (s ++ t) = encode s ++ encode t := by
  rw [encode_eq, encode_eq, encode_eq, String.toByteArray_append, ByteArray.data_append, Array.toList_append]

theorem toNat_lt (c : Char) : c.toNat < 0x110000 := by
  rcases c.valid with h | h
  · exact Nat.lt_trans h (by norm_num)
  · exact h.2

theorem eq_slash_of_mem_utf8EncodeChar {c : Char} (h : 47 ∈ String.utf8EncodeChar c) : c = '/' := by
  have hn := toNat_lt c
  suffices hc : c.toNat = 47 by
    rw [← Char.ofNat_toNat c]
    exact congrArg Char.ofNat hc
  simp only [String.utf8EncodeChar, Char.toNat_val] at h
  split_ifs at h <;> simp only [List.mem_cons, List.not_mem_nil, or_false, ← UInt8.toNat_inj,
    UInt8.toNat_ofNat', UInt8.reduceToNat] at h <;> omega

theorem slash_mem_of_mem_encode {s : String} (h : 47 ∈ encode s) : '/' ∈ s.toList := by
  rw [← String.ofList_toList (s := s), encode_ofList, List.mem_flatMap] at h
  obtain ⟨c, hc, hb⟩ := h
  rwa [eq_slash_of_mem_utf8EncodeChar hb] at hc

/-- What a byte announces, by the length of the character. -/
theorem lead_eq (b : UInt8) : lead b =
    if b.toNat < 128 then .single (Char.ofNat b.toNat)
    else if b.toNat < 194 then .illFormed
    else if b.toNat < 224 then .begins ⟨1, 0x80, 0xBF, b.toNat - 192⟩
    else if b.toNat < 240 then .begins ⟨2, if b.toNat = 224 then 0xA0 else 0x80,
      if b.toNat = 237 then 0x9F else 0xBF, b.toNat - 224⟩
    else if b.toNat < 245 then .begins ⟨3, if b.toNat = 240 then 0x90 else 0x80,
      if b.toNat = 244 then 0x8F else 0xBF, b.toNat - 240⟩
    else .illFormed := by
  simp only [lead, UInt8.lt_iff_toNat_lt, ← UInt8.toNat_inj, UInt8.reduceToNat]
  generalize b.toNat = n
  by_cases h224 : n = 224
  · subst h224; rfl
  by_cases h237 : n = 237
  · subst h237; rfl
  by_cases h240 : n = 240
  · subst h240; rfl
  by_cases h244 : n = 244
  · subst h244; rfl
  rw [if_neg h224, if_neg h224, if_neg h237, if_neg h237, if_neg h240, if_neg h240, if_neg h244, if_neg h244]
  split_ifs <;> first | rfl | omega

theorem lead_of_lt {b : UInt8} (h : b.toNat < 128) : lead b = .single (Char.ofNat b.toNat) := by
  rw [lead_eq, if_pos h]

theorem lead_two {b : UInt8} (h : 194 ≤ b.toNat) (h' : b.toNat < 224) :
    lead b = .begins ⟨1, 0x80, 0xBF, b.toNat - 192⟩ := by
  rw [lead_eq, if_neg (by omega), if_neg (by omega), if_pos h']

theorem lead_three {b : UInt8} (h : 224 ≤ b.toNat) (h' : b.toNat < 240) :
    lead b = .begins ⟨2, if b.toNat = 224 then 0xA0 else 0x80, if b.toNat = 237 then 0x9F else 0xBF,
      b.toNat - 224⟩ := by
  rw [lead_eq, if_neg (by omega), if_neg (by omega), if_neg (by omega), if_pos h']

theorem lead_four {b : UInt8} (h : 240 ≤ b.toNat) (h' : b.toNat < 245) :
    lead b = .begins ⟨3, if b.toNat = 240 then 0x90 else 0x80, if b.toNat = 244 then 0x8F else 0xBF,
      b.toNat - 240⟩ := by
  rw [lead_eq, if_neg (by omega), if_neg (by omega), if_neg (by omega), if_neg (by omega), if_pos h']

theorem take_begun (done : Array (Option Char)) {p : Partial} {b : UInt8}
    (hl : p.least.toNat ≤ b.toNat) (hg : b.toNat ≤ p.greatest.toNat) :
    take done (some p) b = if p.owed ≤ 1 then
        (done.push (some (Char.ofNat (p.bits * 64 + b.toNat % 64))), none)
      else (done, some ⟨p.owed - 1, 0x80, 0xBF, p.bits * 64 + b.toNat % 64⟩) := by
  have hb : p.least ≤ b ∧ b ≤ p.greatest := ⟨UInt8.le_iff_toNat_le.mpr hl, UInt8.le_iff_toNat_le.mpr hg⟩
  simp only [take, hb, and_self, ↓reduceIte]

variable (done : Array (Option Char)) {a b c d l g : UInt8} {n : Nat} (bs : List UInt8)

theorem decodeOnto_begins {p : Partial} (h : lead b = .begins p) :
    decodeOnto done none (b :: bs) = decodeOnto done (some p) bs := by
  simp only [decodeOnto, take, start, h]

theorem decodeOnto_last (hl : l.toNat ≤ b.toNat) (hg : b.toNat ≤ g.toNat) :
    decodeOnto done (some ⟨1, l, g, n⟩) (b :: bs) =
      decodeOnto (done.push (some (Char.ofNat (n * 64 + b.toNat % 64)))) none bs := by
  rw [decodeOnto, take_begun done hl hg]
  rfl

theorem decodeOnto_owed (k : Nat) (hl : l.toNat ≤ b.toNat) (hg : b.toNat ≤ g.toNat) :
    decodeOnto done (some ⟨k + 2, l, g, n⟩) (b :: bs) =
      decodeOnto done (some ⟨k + 1, 0x80, 0xBF, n * 64 + b.toNat % 64⟩) bs := by
  rw [decodeOnto, take_begun done hl hg, if_neg (by simp)]
  rfl

theorem decodeOnto_two (ha : 194 ≤ a.toNat) (ha' : a.toNat < 224) (hb : 128 ≤ b.toNat) (hb' : b.toNat ≤ 191) :
    decodeOnto done none (a :: b :: bs) =
      decodeOnto (done.push (some (Char.ofNat ((a.toNat - 192) * 64 + b.toNat % 64)))) none bs := by
  rw [decodeOnto_begins done _ (lead_two ha ha'), decodeOnto_last (l := 0x80) (g := 0xBF) done bs hb hb']

theorem decodeOnto_three (ha : 224 ≤ a.toNat) (ha' : a.toNat < 240)
    (hb : 128 ≤ b.toNat) (hb' : b.toNat ≤ 191) (hab : a.toNat = 224 → 160 ≤ b.toNat)
    (hab' : a.toNat = 237 → b.toNat ≤ 159)
    (hc : 128 ≤ c.toNat) (hc' : c.toNat ≤ 191) :
    decodeOnto done none (a :: b :: c :: bs) =
      decodeOnto (done.push (some (Char.ofNat
        (((a.toNat - 224) * 64 + b.toNat % 64) * 64 + c.toNat % 64)))) none bs := by
  rw [decodeOnto_begins done _ (lead_three ha ha'), decodeOnto_owed done _ 0,
    decodeOnto_last (l := 0x80) (g := 0xBF) done bs hc hc']
  · split_ifs with h
    · exact hab h
    · exact hb
  · split_ifs with h
    · exact hab' h
    · exact hb'

theorem decodeOnto_four (ha : 240 ≤ a.toNat) (ha' : a.toNat < 245)
    (hb : 128 ≤ b.toNat) (hb' : b.toNat ≤ 191) (hab : a.toNat = 240 → 144 ≤ b.toNat)
    (hab' : a.toNat = 244 → b.toNat ≤ 143)
    (hc : 128 ≤ c.toNat) (hc' : c.toNat ≤ 191) (hd : 128 ≤ d.toNat) (hd' : d.toNat ≤ 191) :
    decodeOnto done none (a :: b :: c :: d :: bs) =
      decodeOnto (done.push (some (Char.ofNat
        ((((a.toNat - 240) * 64 + b.toNat % 64) * 64 + c.toNat % 64) * 64 + d.toNat % 64)))) none bs := by
  rw [decodeOnto_begins done _ (lead_four ha ha'), decodeOnto_owed done _ 1,
    decodeOnto_owed (l := 0x80) (g := 0xBF) done _ 0 hc hc',
    decodeOnto_last (l := 0x80) (g := 0xBF) done bs hd hd']
  · split_ifs with h
    · exact hab h
    · exact hb
  · split_ifs with h
    · exact hab' h
    · exact hb'

theorem decodeOnto_utf8EncodeChar (x : Char) :
    decodeOnto done none (String.utf8EncodeChar x ++ bs) = decodeOnto (done.push (some x)) none bs := by
  have hn := toNat_lt x
  have hs : ¬ (0xD800 ≤ x.toNat ∧ x.toNat < 0xE000) := by
    rcases x.valid with h | h <;> simp only [Char.toNat_val] at h <;> omega
  have hx : ∀ {m : Nat}, m = x.toNat → Char.ofNat m = x := by
    rintro _ rfl
    exact Char.ofNat_toNat x
  simp only [String.utf8EncodeChar, Char.toNat_val]
  split_ifs with h₁ h₂ h₃
  · have hb : (UInt8.ofNat x.toNat).toNat = x.toNat := by rw [UInt8.toNat_ofNat']; omega
    have hl := lead_of_lt (b := UInt8.ofNat x.toNat) (by omega)
    rw [hx hb] at hl
    simp only [List.singleton_append, decodeOnto, take, start, hl]
  · simp only [List.cons_append, List.nil_append]
    rw [decodeOnto_two, hx] <;> simp only [UInt8.toNat_ofNat'] <;> omega
  · simp only [List.cons_append, List.nil_append]
    rw [decodeOnto_three, hx] <;> simp only [UInt8.toNat_ofNat'] <;> omega
  · simp only [List.cons_append, List.nil_append]
    rw [decodeOnto_four, hx] <;> simp only [UInt8.toNat_ofNat'] <;> omega

theorem toList_decodeOnto_flatMap (xs : List Char) :
    (decodeOnto done none (xs.flatMap String.utf8EncodeChar)).toList = done.toList ++ xs.map some := by
  induction xs generalizing done with
  | nil => simp [decodeOnto]
  | cons x xs ih => simp [decodeOnto_utf8EncodeChar, ih]

theorem lossy_encode (s : String) : lossy (encode s) = s := by
  rw [← String.ofList_toList (s := s), encode_ofList]
  simp [lossy, decode, toList_decodeOnto_flatMap, Function.comp_def]

theorem encode_injective : Function.Injective encode :=
  Function.LeftInverse.injective lossy_encode

/-- What the bytes still owed make of a character is at least 128, whatever they are. -/
structure Partial.Wide (p : Partial) : Prop where
  owed_pos : 0 < p.owed
  least_ge : 128 ≤ p.least.toNat
  greatest_le : p.greatest.toNat ≤ 191
  wide : 128 ≤ (p.bits * 64 + (p.least.toNat - 128)) * 64 ^ (p.owed - 1)

/-- A first byte that announces no bits has a second one above the least. -/
theorem Partial.Wide.of_first {k n m m' : Nat} {lo hi : UInt8} (hm : m ≤ n) (hlo : 130 ≤ lo.toNat)
    (hhi : hi.toNat ≤ 191) :
    Wide ⟨k + 2, if n = m then lo else 0x80, if n = m' then hi else 0xBF, n - m⟩ := by
  have hpow : 64 ≤ 64 ^ (k + 1) := by
    have := Nat.one_le_pow k 64 (by decide)
    omega
  constructor
  · exact Nat.succ_pos _
  · simp only
    split
    · omega
    · decide
  · simp only
    split
    · exact hhi
    · decide
  · show 128 ≤ ((n - m) * 64 + ((if n = m then lo else 0x80).toNat - 128)) * 64 ^ (k + 1)
    have htwo : 2 ≤ (n - m) * 64 + ((if n = m then lo else 0x80).toNat - 128) := by
      split <;> omega
    calc 128 = 2 * 64 := rfl
      _ ≤ _ := Nat.mul_le_mul htwo hpow

theorem Partial.Wide.of_lead {p : Partial} (h : lead b = .begins p) : p.Wide := by
  rw [lead_eq] at h
  split at h
  · cases h
  split at h
  · cases h
  split at h
  · cases h
    constructor <;> simp
    omega
  split at h
  · cases h
    exact .of_first (by omega) (by decide) (by decide)
  split at h
  · cases h
    exact .of_first (by omega) (by decide) (by decide)
  · cases h

theorem eq_of_ofNat_eq_slash {n : Nat} (h : Char.ofNat n = '/') : n = 47 := by
  have hn : (Char.ofNat n).toNat = 47 := by
    rw [h]
    rfl
  by_cases hv : n.isValidChar
  · rwa [Char.ofNat, dif_pos hv] at hn
  · rw [Char.ofNat, dif_neg hv] at hn
    exact absurd hn (by decide)

theorem start_spec :
    (∀ p, (start done b).2 = some p → p.Wide) ∧
      (some '/' ∈ (start done b).1 → some '/' ∈ done ∨ b = 47) := by
  unfold start
  split
  next c hc =>
    refine ⟨nofun, fun h => ?_⟩
    rcases Array.mem_push.mp h with h | h
    · exact .inl h
    · unfold lead at hc
      split_ifs at hc
      injection hc with hc
      rw [← hc, Option.some.injEq, eq_comm] at h
      exact .inr (UInt8.toNat_inj.mp (eq_of_ofNat_eq_slash h))
  next q hq =>
    refine ⟨fun p hp => ?_, .inl⟩
    cases hp
    exact .of_lead hq
  next => exact ⟨nofun, fun h => .inl (by simpa using h)⟩

/-- A byte keeps the character begun wide, so that it shows a slash only if it is one. -/
theorem take_spec {begun : Option Partial} (hw : ∀ p, begun = some p → p.Wide) :
    (∀ p, (take done begun b).2 = some p → p.Wide) ∧
      (some '/' ∈ (take done begun b).1 → some '/' ∈ done ∨ b = 47) := by
  cases begun with
  | none => exact start_spec done
  | some p =>
    have hp := hw p rfl
    by_cases hb : p.least.toNat ≤ b.toNat ∧ b.toNat ≤ p.greatest.toNat
    · rw [take_begun done hb.1 hb.2]
      have hm : p.least.toNat - 128 ≤ b.toNat % 64 := by
        have := hp.least_ge
        have := hp.greatest_le
        omega
      have hle : p.bits * 64 + (p.least.toNat - 128) ≤ p.bits * 64 + b.toNat % 64 :=
        Nat.add_le_add_left hm _
      have hwide := hp.wide
      split
      next ho =>
        refine ⟨nofun, fun h => ?_⟩
        rcases Array.mem_push.mp h with h | h
        · exact .inl h
        · have hc := eq_of_ofNat_eq_slash (Option.some.inj h).symm
          have h1 : p.owed - 1 = 0 := by omega
          rw [h1, Nat.pow_zero, Nat.mul_one] at hwide
          omega
      next ho =>
        refine ⟨fun q hq => ?_, .inl⟩
        cases hq
        refine ⟨by simp; omega, by simp, by simp, ?_⟩
        obtain ⟨k, hk⟩ : ∃ k, p.owed = k + 2 := ⟨p.owed - 2, by omega⟩
        calc 128 ≤ (p.bits * 64 + (p.least.toNat - 128)) * 64 ^ (k + 1) := by simpa [hk] using hwide
          _ ≤ (p.bits * 64 + b.toNat % 64) * 64 ^ (k + 1) := Nat.mul_le_mul_right _ hle
          _ = ((p.bits * 64 + b.toNat % 64) * 64 + ((0x80 : UInt8).toNat - 128)) * 64 ^ (p.owed - 1 - 1) := by
            simp [hk, Nat.pow_succ, Nat.mul_assoc, Nat.mul_comm 64]
    · have h : take done (some p) b = start (done.push none) b := by
        simp only [take, UInt8.le_iff_toNat_le, hb, ↓reduceIte]
      rw [h]
      obtain ⟨h₁, h₂⟩ := start_spec (done.push none) (b := b)
      exact ⟨h₁, fun hs => (h₂ hs).imp_left (by simp)⟩

theorem slash_mem_of_mem_decodeOnto {begun : Option Partial} (hw : ∀ p, begun = some p → p.Wide)
    (h : some '/' ∈ decodeOnto done begun bs) : some '/' ∈ done ∨ 47 ∈ bs := by
  induction bs generalizing done begun with
  | nil =>
    rw [decodeOnto] at h
    split at h
    · exact .inl (by simpa using h)
    · exact .inl h
  | cons b bs ih =>
    obtain ⟨hw', hs⟩ := take_spec done (b := b) hw
    rcases ih _ hw' h with hd | hm
    · exact (hs hd).imp_right fun hb => List.mem_cons.mpr (.inl hb.symm)
    · exact .inr (List.mem_cons_of_mem _ hm)

/-- What is shown of a byte string has a slash only for a slash. -/
theorem slash_mem_of_mem_lossy (h : '/' ∈ (lossy bs).toList) : 47 ∈ bs := by
  rw [lossy, String.toList_ofList, List.mem_map] at h
  obtain ⟨o, ho, hd⟩ := h
  have hs : o = some '/' := by
    cases o with
    | none => exact absurd hd (by decide)
    | some c => exact congrArg some hd
  rw [hs, decode, Array.mem_toList_iff] at ho
  have hw : ∀ p, (none : Option Partial) = some p → p.Wide := fun p hp => nomatch hp
  simpa using slash_mem_of_mem_decodeOnto #[] bs hw ho

theorem size_decodeOnto_pos {begun : Option Partial} (h : 0 < done.size ∨ begun.isSome ∨ bs ≠ []) :
    0 < (decodeOnto done begun bs).size := by
  induction bs generalizing done begun with
  | nil =>
    rw [decodeOnto]
    split
    next => simp
    next hb => simpa [hb] using h
  | cons b bs ih =>
    refine ih _ ?_
    suffices hs : 0 < (take done begun b).1.size ∨ (take done begun b).2.isSome from hs.imp_right .inl
    unfold take start
    split
    · split <;> simp
    · split
      · simp only
        split <;> simp
      · split <;> simp

theorem lossy_ne_empty (h : bs ≠ []) : lossy bs ≠ "" := by
  intro he
  have hs : 0 < (decodeOnto #[] none bs).size := size_decodeOnto_pos #[] bs (.inr (.inr h))
  have hl := congrArg (List.length ∘ String.toList) he
  simp only [lossy, Function.comp_apply, String.toList_ofList, List.length_map, decode,
    Array.length_toList, String.toList_empty, List.length_nil] at hl
  omega

end TapeMachine.Utf8
