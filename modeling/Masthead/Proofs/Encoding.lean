import Mathlib.Data.Char
import Mathlib.Tactic.SplitIfs
import Masthead.Text.Encoding

/-!
# Texts and their bytes

Decoding takes a text back from its bytes. What decoding makes of any bytes holds an ASCII character
only where the bytes hold it.
-/
namespace Masthead.Text

variable {t : Text} {bytes : List UInt8} {b : Nat} {c : Char} {o : Opening}

/-! ## Characters -/

theorem toNat_ofNat_of_lt (h : b < 256) : (UInt8.ofNat b).toNat = b := by
  rw [UInt8.toNat_ofNat', Nat.mod_eq_of_lt h]

theorem toNat_character (h : b.isValidChar) : (character b).toNat = b := by
  rw [character, if_pos h, Char.ofNat, dif_pos h]
  rfl

theorem character_toNat (c : Char) : character c.toNat = c := by
  rw [character, if_pos (show c.toNat.isValidChar from c.valid), Char.ofNat_toNat]

theorem decodeNext_none_of_opening (h : opening? b = some o) : decodeNext none b = ([], some o) := by
  have hlead : ¬ b < 0x80 := by
    intro hb
    rw [opening?, if_pos (by omega)] at h
    cases h
  rw [decodeNext, decodeFirst, if_neg hlead, h]

theorem decodeNext_last (h : o.low ≤ b ∧ b ≤ o.high) (hlast : o.missing = 1) :
    decodeNext (some o) b = ([character (o.value * 64 + (b - 0x80))], none) := by
  simp only [decodeNext]
  rw [if_neg (by omega), if_pos (by omega)]

theorem decodeNext_more (h : o.low ≤ b ∧ b ≤ o.high) (hmore : 1 < o.missing) :
    decodeNext (some o) b =
      ([], some ⟨o.value * 64 + (b - 0x80), o.missing - 1, 0x80, 0xBF⟩) := by
  simp only [decodeNext]
  rw [if_neg (by omega), if_neg (by omega)]

theorem decodeFrom_cons (opening : Option Opening) (b : UInt8) (bytes : List UInt8) :
    decodeFrom opening (b :: bytes) =
      (decodeNext opening b.toNat).1 ++ decodeFrom (decodeNext opening b.toNat).2 bytes := by
  cases opening <;> rw [decodeFrom]

theorem decodeFrom_ofNat_cons (opening : Option Opening) (h : b < 256) (bytes : List UInt8) :
    decodeFrom opening (UInt8.ofNat b :: bytes) =
      (decodeNext opening b).1 ++ decodeFrom (decodeNext opening b).2 bytes := by
  rw [decodeFrom_cons, toNat_ofNat_of_lt h]

theorem decodeFrom_two {v : Nat} (h : 0x80 ≤ v ∧ v < 0x800) (bytes : List UInt8) :
    decodeFrom none (UInt8.ofNat (v / 64 + 0xC0) :: UInt8.ofNat (v % 64 + 0x80) :: bytes) =
      character v :: decodeFrom none bytes := by
  have hopen : opening? (v / 64 + 0xC0) = some ⟨v / 64, 1, 0x80, 0xBF⟩ := by
    rw [opening?, if_neg (by omega), if_pos (by omega), Nat.add_sub_cancel]
  have hvalue : v / 64 * 64 + (v % 64 + 0x80 - 0x80) = v := by omega
  rw [decodeFrom_ofNat_cons _ (by omega), decodeNext_none_of_opening hopen,
    decodeFrom_ofNat_cons _ (by omega),
    decodeNext_last (by simp only; omega) rfl]
  simp only [hvalue]
  rfl

theorem decodeFrom_three {v : Nat} (h : 0x800 ≤ v ∧ v < 0x10000) (hvalid : v.isValidChar)
    (bytes : List UInt8) :
    decodeFrom none (UInt8.ofNat (v / 4096 + 0xE0) :: UInt8.ofNat (v / 64 % 64 + 0x80) ::
      UInt8.ofNat (v % 64 + 0x80) :: bytes) = character v :: decodeFrom none bytes := by
  have hopen : opening? (v / 4096 + 0xE0) = some ⟨v / 4096, 2,
      if v / 4096 + 0xE0 = 0xE0 then 0xA0 else 0x80,
      if v / 4096 + 0xE0 = 0xED then 0x9F else 0xBF⟩ := by
    rw [opening?, if_neg (by omega), if_neg (by omega), if_pos (by omega), Nat.add_sub_cancel]
  have hvalue : (v / 4096 * 64 + (v / 64 % 64 + 0x80 - 0x80)) * 64 + (v % 64 + 0x80 - 0x80) = v := by
    omega
  have hsecond : (if v / 4096 + 0xE0 = 0xE0 then 0xA0 else 0x80) ≤ v / 64 % 64 + 0x80 ∧
      v / 64 % 64 + 0x80 ≤ if v / 4096 + 0xE0 = 0xED then 0x9F else 0xBF := by
    unfold Nat.isValidChar at hvalid
    constructor <;> split <;> omega
  rw [decodeFrom_ofNat_cons _ (by omega), decodeNext_none_of_opening hopen,
    decodeFrom_ofNat_cons _ (by omega),
    decodeNext_more hsecond (by simp), decodeFrom_ofNat_cons _ (by omega),
    decodeNext_last (by simp only; omega) rfl]
  simp only [hvalue]
  rfl

theorem decodeFrom_four {v : Nat} (h : 0x10000 ≤ v ∧ v < 0x110000) (bytes : List UInt8) :
    decodeFrom none (UInt8.ofNat (v / 262144 + 0xF0) :: UInt8.ofNat (v / 4096 % 64 + 0x80) ::
      UInt8.ofNat (v / 64 % 64 + 0x80) :: UInt8.ofNat (v % 64 + 0x80) :: bytes) =
      character v :: decodeFrom none bytes := by
  have hopen : opening? (v / 262144 + 0xF0) = some ⟨v / 262144, 3,
      if v / 262144 + 0xF0 = 0xF0 then 0x90 else 0x80,
      if v / 262144 + 0xF0 = 0xF4 then 0x8F else 0xBF⟩ := by
    rw [opening?, if_neg (by omega), if_neg (by omega), if_neg (by omega), if_pos (by omega),
      Nat.add_sub_cancel]
  have hvalue : ((v / 262144 * 64 + (v / 4096 % 64 + 0x80 - 0x80)) * 64 +
      (v / 64 % 64 + 0x80 - 0x80)) * 64 + (v % 64 + 0x80 - 0x80) = v := by omega
  have hsecond : (if v / 262144 + 0xF0 = 0xF0 then 0x90 else 0x80) ≤ v / 4096 % 64 + 0x80 ∧
      v / 4096 % 64 + 0x80 ≤ if v / 262144 + 0xF0 = 0xF4 then 0x8F else 0xBF := by
    constructor <;> split <;> omega
  rw [decodeFrom_ofNat_cons _ (by omega), decodeNext_none_of_opening hopen,
    decodeFrom_ofNat_cons _ (by omega),
    decodeNext_more hsecond (by simp), decodeFrom_ofNat_cons _ (by omega),
    decodeNext_more (by simp only; omega) (by simp), decodeFrom_ofNat_cons _ (by omega),
    decodeNext_last (by simp only; omega) rfl]
  simp only [hvalue]
  rfl

theorem decodeFrom_utf8EncodeChar (c : Char) (bytes : List UInt8) :
    decodeFrom none (String.utf8EncodeChar c ++ bytes) = c :: decodeFrom none bytes := by
  have hvalid : c.toNat.isValidChar := c.valid
  have hlt : c.toNat < 0x110000 := by
    unfold Nat.isValidChar at hvalid
    omega
  have hchar := character_toNat c
  unfold String.utf8EncodeChar
  simp only [show c.val.toNat = c.toNat from rfl]
  generalize c.toNat = v at hvalid hlt hchar
  split_ifs with hone htwo hthree
  · rw [List.cons_append, List.nil_append, decodeFrom_ofNat_cons _ (by omega), decodeNext, decodeFirst,
      if_pos (by omega), hchar]
    rfl
  · rw [Nat.mod_eq_of_lt (show v / 64 < 0x20 by omega), ← hchar]
    exact decodeFrom_two (by omega) bytes
  · rw [Nat.mod_eq_of_lt (show v / 4096 < 0x10 by omega), ← hchar]
    exact decodeFrom_three (by omega) hvalid bytes
  · rw [Nat.mod_eq_of_lt (show v / 262144 < 0x08 by omega), ← hchar]
    exact decodeFrom_four (by omega) bytes

/-! ## Texts -/

@[simp] theorem encode_nil : encode [] = [] := rfl

@[simp] theorem encode_cons (c : Char) (t : Text) :
    encode (c :: t) = String.utf8EncodeChar c ++ encode t := rfl

theorem encode_append (s t : Text) : encode (s ++ t) = encode s ++ encode t := List.flatMap_append

@[simp] theorem decode_encode (t : Text) : decode (encode t) = t := by
  induction t with
  | nil => rfl
  | cons c t ih => rw [encode_cons, decode, decodeFrom_utf8EncodeChar, ← decode, ih]

theorem encode_injective : Function.Injective encode :=
  Function.LeftInverse.injective decode_encode

theorem decode?_eq_some_iff : decode? bytes = some t ↔ bytes = encode t := by
  unfold decode?
  constructor
  · intro h
    split_ifs at h with hbytes
    rw [← Option.some.inj h, hbytes]
  · rintro rfl
    simp

@[simp] theorem decode?_encode (t : Text) : decode? (encode t) = some t :=
  decode?_eq_some_iff.mpr rfl

/-! ## ASCII -/

/-- No ASCII character can come of what is open. -/
structure Opening.Sound (o : Opening) : Prop where
  low : 0x80 ≤ o.low
  least : 2 ≤ o.value * 64 + (o.low - 0x80)
  last : o.missing ≤ 1 → 0x80 ≤ o.value * 64 + (o.low - 0x80)

theorem sound_of_opening (h : opening? b = some o) : o.Sound := by
  unfold opening? at h
  split_ifs at h with h1 h2 h3 h4
  all_goals
    obtain rfl := Option.some.inj h
    constructor
    all_goals
      dsimp only
      omega

theorem character_of_le (h : 0x80 ≤ b) : 0x80 ≤ (character b).toNat := by
  by_cases hvalid : b.isValidChar
  · rwa [toNat_character hvalid]
  · rw [character, if_neg hvalid]
    decide

theorem decodeFirst_ascii (b : Nat) :
    (∀ c ∈ (decodeFirst b).1, c.toNat < 0x80 → c.toNat = b) ∧
      ∀ o ∈ (decodeFirst b).2, o.Sound := by
  unfold decodeFirst
  split_ifs with hb
  · refine ⟨fun c hc _ => ?_, by simp⟩
    rw [List.mem_singleton.mp hc, toNat_character (.inl (by omega))]
  · split
    · rename_i o hopen
      exact ⟨by simp, fun o' ho' => sound_of_opening (hopen.trans ho')⟩
    · refine ⟨fun c hc hascii => ?_, by simp⟩
      rw [List.mem_singleton.mp hc] at hascii
      exact absurd hascii (by decide)

theorem decodeNext_ascii {opening : Option Opening} (h : ∀ o ∈ opening, o.Sound) (b : Nat) :
    (∀ c ∈ (decodeNext opening b).1, c.toNat < 0x80 → c.toNat = b) ∧
      ∀ o ∈ (decodeNext opening b).2, o.Sound := by
  cases opening with
  | none => exact decodeFirst_ascii b
  | some o =>
    obtain ⟨-, hleast, hlast⟩ := h o rfl
    simp only [decodeNext]
    split_ifs with hout hone
    · refine ⟨fun c hc hascii => ?_, (decodeFirst_ascii b).2⟩
      rcases List.mem_cons.mp hc with rfl | hc
      · exact absurd hascii (by decide)
      · exact (decodeFirst_ascii b).1 c hc hascii
    · refine ⟨fun c hc hascii => ?_, by simp⟩
      rw [List.mem_singleton.mp hc] at hascii
      have hvalue : 0x80 ≤ o.value * 64 + (b - 0x80) := by
        have := hlast hone
        omega
      exact absurd hascii (Nat.not_lt.mpr (character_of_le hvalue))
    · refine ⟨by simp, fun o' ho' => ?_⟩
      obtain rfl := Option.some.inj ho'
      refine ⟨le_rfl, ?_, ?_⟩
      · dsimp only
        omega
      · intro _
        dsimp only
        omega

theorem mem_of_mem_decodeFrom {opening : Option Opening} (h : ∀ o ∈ opening, o.Sound)
    (hc : c ∈ decodeFrom opening bytes) (hascii : c.toNat < 0x80) : UInt8.ofNat c.toNat ∈ bytes := by
  induction bytes generalizing opening with
  | nil =>
    cases opening with
    | none => cases hc
    | some o =>
      rw [decodeFrom, List.mem_singleton] at hc
      rw [hc] at hascii
      exact absurd hascii (by decide)
  | cons b bytes ih =>
    obtain ⟨hhere, hsound⟩ := decodeNext_ascii h b.toNat
    rw [decodeFrom] at hc
    · rcases List.mem_append.mp hc with hc | hc
      · rw [hhere c hc hascii, UInt8.ofNat_toNat]
        exact List.mem_cons_self
      · exact List.mem_cons_of_mem b (ih hsound hc)

theorem mem_of_mem_decode (hc : c ∈ decode bytes) (hascii : c.toNat < 0x80) :
    UInt8.ofNat c.toNat ∈ bytes :=
  mem_of_mem_decodeFrom (by simp) hc hascii

theorem decodeNext_of_lt {opening : Option Opening} (h : ∀ o ∈ opening, o.Sound) (hb : b < 0x80) :
    decodeNext opening b = (opening.toList.map (fun _ => replacement) ++ [character b], none) := by
  cases opening with
  | none => rw [decodeNext, decodeFirst, if_pos hb]; rfl
  | some o =>
    have hlow := (h o rfl).low
    simp only [decodeNext, decodeFirst, if_pos hb]
    rw [if_pos (.inl (by omega))]
    rfl

theorem mem_of_mem_encode (h : UInt8.ofNat b ∈ encode t) (hascii : b < 0x80) : Char.ofNat b ∈ t := by
  obtain ⟨c, hc, hmem⟩ := List.mem_flatMap.mp h
  have hsame : c.toNat = b := by
    unfold String.utf8EncodeChar at hmem
    simp only [show c.val.toNat = c.toNat from rfl] at hmem
    have hvalid : c.toNat.isValidChar := c.valid
    unfold Nat.isValidChar at hvalid
    have hbyte : ∀ n < 256, UInt8.ofNat b = UInt8.ofNat n → b = n := by
      intro n hn heq
      rw [← toNat_ofNat_of_lt (show b < 256 by omega), heq, toNat_ofNat_of_lt hn]
    split_ifs at hmem with hone htwo hthree
    all_goals
      simp only [List.mem_cons, List.not_mem_nil, or_false] at hmem
    · exact (hbyte _ (by omega) hmem).symm
    · rcases hmem with hmem | hmem
      · have := hbyte _ (by omega) hmem
        omega
      · have := hbyte _ (by omega) hmem
        omega
    · rcases hmem with hmem | hmem | hmem
      all_goals
        have := hbyte _ (by omega) hmem
        omega
    · rcases hmem with hmem | hmem | hmem | hmem
      all_goals
        have := hbyte _ (by omega) hmem
        omega
  rw [← hsame, Char.ofNat_toNat]
  exact hc

end Masthead.Text
