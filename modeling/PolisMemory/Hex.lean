/-
# Hexadecimal texts, with the panics

`crates/polis-memory/src/identity.rs`: `hex_decode` takes the trimmed text two
bytes at a time, as a slice of the string, and reads each slice with
`u8::from_str_radix`. A slice that cuts a character panics, and `from_str_radix`
takes a sign before a digit; `hexDecode` of `PolisMemory.Envelope` stands for
what is decoded, with a panic as a refusal (`hexDecode_eq`). Here the panics
are kept.

Bytes written in hexadecimal are read back. A text is decoded exactly as its
digits say, without a panic, if its length is odd, or if it holds hexadecimal
digits only, or if stepping through it by two bytes meets two characters (or
one of two bytes) that are no number before it cuts a character
(`hexDecode_exact_iff`); `verify` panics exactly on an envelope whose checks
come to a text that is cut.

Key definitions: `slice`, `Panicking.hexDecode`, `Panicking.verify`, `Cuts`,
`StopsEarly`.
Key theorems: `hexWalk_eq_some_iff`, `hexDecode_exact_iff`.
-/
import PolisMemory.Adoption
import PolisMemory.JsonValue

namespace PolisMemory

open JsonText

/-! ### Slices of a string -/

/-- An offset that is inside a character, or past the end. -/
inductive Panic where
  | charBoundary
  deriving DecidableEq, Repr

/-- What is left after as many bytes. -/
def dropBytes : ℕ → List Char → Option (List Char)
  | 0, cs => some cs
  | _ + 1, [] => none
  | n + 1, c :: cs =>
    if c.utf8Size ≤ n + 1 then dropBytes (n + 1 - c.utf8Size) cs else none

/-- The characters of the first bytes. -/
def takeBytes : ℕ → List Char → Option (List Char)
  | 0, _ => some []
  | _ + 1, [] => none
  | n + 1, c :: cs =>
    if c.utf8Size ≤ n + 1 then (takeBytes (n + 1 - c.utf8Size) cs).map (c :: ·) else none

/-- `&s[i..j]` -/
def slice (cs : List Char) (i j : ℕ) : Except Panic (List Char) :=
  match (dropBytes i cs).bind (takeBytes (j - i)) with
  | some t => .ok t
  | none => .error .charBoundary

/-- `u8::from_str_radix(s, 16).ok()` of two bytes: one character of two bytes
is no digit. -/
def pairValue : List Char → Option UInt8
  | [a, b] => hexPair a b
  | _ => none

namespace Panicking

/-- The slices from the offset on, as many as are left; the first that is no
number ends the reading. -/
def hexSlices (cs : List Char) : ℕ → ℕ → Except Panic (Option (List UInt8))
  | _, 0 => .ok (some [])
  | i, n + 1 => do
    let pair ← slice cs i (i + 2)
    match pairValue pair with
    | none => return none
    | some x => return (← hexSlices cs (i + 2) n).map (x :: ·)

/-- `hex_decode`. -/
def hexDecode (s : String) : Except Panic (Option (List UInt8)) :=
  let cs := (trim s).toList
  if Value.bytes cs % 2 ≠ 0 then .ok none else hexSlices cs 0 (Value.bytes cs / 2)

end Panicking

/-! ### Two bytes at a time -/

/-- The same reading, by characters. -/
def hexWalk : List Char → Except Panic (Option (List UInt8))
  | [] => .ok (some [])
  | [a] => if a.utf8Size = 2 then .ok none else .error .charBoundary
  | a :: b :: rest =>
    if a.utf8Size = 2 then .ok none
    else if a.utf8Size = 1 ∧ b.utf8Size = 1 then
      match hexPair a b with
      | none => .ok none
      | some x => (hexWalk rest).map fun r => r.map (x :: ·)
    else .error .charBoundary

theorem dropBytes_add : ∀ (i k : ℕ) (cs rest : List Char), dropBytes i cs = some rest →
    dropBytes (i + k) cs = dropBytes k rest
  | 0, k, cs, rest, h => by
    rw [dropBytes, Option.some.injEq] at h
    rw [Nat.zero_add, h]
  | i + 1, k, [], rest, h => nomatch h
  | i + 1, k, c :: cs, rest, h => by
    rw [dropBytes] at h
    split at h
    · rename_i hle
      have ih := dropBytes_add (i + 1 - c.utf8Size) k cs rest h
      have hk : i + 1 - c.utf8Size + k = i + k + 1 - c.utf8Size := by omega
      rw [hk] at ih
      rw [show i + 1 + k = i + k + 1 by omega, dropBytes, if_pos (by omega), ih]
    · exact nomatch h

/-- Reading slice by slice is walking over the characters. -/
theorem hexSlices_eq_walk (cs : List Char) : ∀ (n i : ℕ) (rest : List Char),
    dropBytes i cs = some rest → Value.bytes rest = 2 * n →
    Panicking.hexSlices cs i n = hexWalk rest
  | 0, i, [], _, _ => rfl
  | 0, i, a :: rest, _, hbytes => by
    have ha := a.utf8Size_pos
    rw [Value.bytes_cons] at hbytes
    omega
  | n + 1, i, [], _, hbytes => by
    rw [Value.bytes_nil] at hbytes
    omega
  | n + 1, i, a :: rest, hdrop, hbytes => by
    have hslice : slice cs i (i + 2) = match takeBytes 2 (a :: rest) with
        | some t => .ok t
        | none => .error .charBoundary := by
      rw [slice, hdrop, Option.bind_some, Nat.add_sub_cancel_left]
    have hpos := a.utf8Size_pos
    rw [Value.bytes_cons] at hbytes
    rw [Panicking.hexSlices, hslice]
    by_cases h2 : a.utf8Size = 2
    · -- one character of two bytes
      have htake : takeBytes 2 (a :: rest) = some [a] := by simp [takeBytes, h2]
      have hwalk : hexWalk (a :: rest) = .ok none := by
        cases rest <;> simp [hexWalk, h2]
      rw [htake, hwalk]
      rfl
    · by_cases h1 : a.utf8Size = 1
      · cases rest with
        | nil => rw [Value.bytes_nil] at hbytes; omega
        | cons b rest =>
          have hposb := b.utf8Size_pos
          by_cases hb : b.utf8Size = 1
          · -- two characters of a byte each
            have htake : takeBytes 2 (a :: b :: rest) = some [a, b] := by
              simp [takeBytes, h1, hb]
            have hwalk : hexWalk (a :: b :: rest) = match hexPair a b with
                | none => .ok none
                | some x => (hexWalk rest).map fun r => r.map (x :: ·) := by
              rw [hexWalk, if_neg h2, if_pos ⟨h1, hb⟩]
            rw [htake, hwalk]
            cases hpair : hexPair a b with
            | none => simp [pairValue, hpair, bind, Except.bind, pure, Except.pure]
            | some x =>
              have ih := hexSlices_eq_walk cs n (i + 2) rest
                (by rw [dropBytes_add i 2 cs _ hdrop]; simp [dropBytes, h1, hb])
                (by rw [Value.bytes_cons] at hbytes; omega)
              simp only [pairValue, hpair, bind, Except.bind, pure, Except.pure, ih]
              cases hexWalk rest <;> rfl
          · -- the second character is cut
            have htake : takeBytes 2 (a :: b :: rest) = none := by
              simp [takeBytes, h1, show ¬b.utf8Size ≤ 1 by omega]
            rw [htake, hexWalk, if_neg h2, if_neg fun h => hb h.2]
            rfl
      · -- the first character is cut
        have htake : takeBytes 2 (a :: rest) = none := by
          simp [takeBytes, show ¬a.utf8Size ≤ 2 by omega]
        have hwalk : hexWalk (a :: rest) = .error .charBoundary := by
          cases rest with
          | nil => rw [hexWalk, if_neg h2]
          | cons b rest => rw [hexWalk, if_neg h2, if_neg fun h => h1 h.1]
        rw [htake, hwalk]
        rfl

theorem Panicking.hexDecode_of_odd {s : String} (h : Value.bytes (trim s).toList % 2 ≠ 0) :
    Panicking.hexDecode s = .ok none := by
  rw [Panicking.hexDecode, if_pos h]

theorem Panicking.hexDecode_of_even {s : String} (h : Value.bytes (trim s).toList % 2 = 0) :
    Panicking.hexDecode s = hexWalk (trim s).toList := by
  rw [Panicking.hexDecode, if_neg (not_not.mpr h)]
  exact hexSlices_eq_walk _ _ 0 _ (by rw [dropBytes]) (by omega)

/-! ### What is accepted -/

/-- A hexadecimal digit, of either case. -/
def IsHex (c : Char) : Prop := (hexDigit c).isSome = true

theorem hexDigit_eq_some {c : Char} {m : ℕ} (h : hexDigit c = some m) : c.toNat < 103 := by
  have hle : ∀ {d : Char}, c ≤ d → c.toNat ≤ d.toNat := fun hcd => hcd
  unfold hexDigit at h
  split at h
  · rename_i hd
    have := hle hd.2
    simp at this
    omega
  · split at h
    · rename_i hd
      have := hle hd.2
      simp at this
      omega
    · split at h
      · rename_i hd
        have := hle hd.2
        simp at this
        omega
      · exact nomatch h

/-- The digit of each character below `g`. -/
theorem hexDigit_table : ∀ n < 103, (hexDigit (Char.ofNat n)).all (fun m =>
    m < 16 ∧ Nat.digitChar m = (Char.ofNat n).toLower ∧ Char.ofNat n ≠ '+') = true := by
  decide

/-- A digit's value is written as the digit in lower case. -/
theorem hexDigit_spec {c : Char} {m : ℕ} (h : hexDigit c = some m) :
    m < 16 ∧ Nat.digitChar m = c.toLower ∧ c ≠ '+' := by
  have ht := hexDigit_table c.toNat (hexDigit_eq_some h)
  rw [Char.ofNat_toNat, h] at ht
  simpa using ht

theorem utf8Size_of_lt {c : Char} (h : c.toNat < 128) : c.utf8Size = 1 := by
  apply Char.utf8Size_eq_one_iff.mpr
  exact UInt32.le_iff_toNat_le.mpr (Nat.le_of_lt_succ h)

theorem IsHex.utf8Size {c : Char} (h : IsHex c) : c.utf8Size = 1 := by
  obtain ⟨m, hm⟩ := Option.isSome_iff_exists.mp h
  have hlt := hexDigit_eq_some hm
  exact utf8Size_of_lt (by omega)

theorem utf8Size_of_hexPair {a b : Char} {x : UInt8} (h : hexPair a b = some x) :
    a.utf8Size = 1 ∧ b.utf8Size = 1 := by
  unfold hexPair at h
  split at h
  · rename_i ha
    obtain ⟨m, hm, -⟩ := Option.map_eq_some_iff.mp h
    exact ⟨by rw [ha]; rfl, IsHex.utf8Size (Option.isSome_iff_exists.mpr ⟨m, hm⟩)⟩
  · obtain ⟨m, hm, hrest⟩ := Option.bind_eq_some_iff.mp h
    obtain ⟨n, hn, -⟩ := Option.map_eq_some_iff.mp hrest
    exact ⟨IsHex.utf8Size (Option.isSome_iff_exists.mpr ⟨m, hm⟩),
      IsHex.utf8Size (Option.isSome_iff_exists.mpr ⟨n, hn⟩)⟩

/-- Two digits are a byte, and the byte is written as they are in lower
case. -/
theorem IsHex.pair {a b : Char} (ha : IsHex a) (hb : IsHex b) :
    ∃ x, hexPair a b = some x ∧ Wire.byteHex x = [a.toLower, b.toLower] := by
  obtain ⟨m, hm⟩ := Option.isSome_iff_exists.mp ha
  obtain ⟨n, hn⟩ := Option.isSome_iff_exists.mp hb
  obtain ⟨hm16, hma, hplus⟩ := hexDigit_spec hm
  obtain ⟨hn16, hnb, -⟩ := hexDigit_spec hn
  refine ⟨UInt8.ofNat (16 * m + n), ?_, ?_⟩
  · rw [hexPair, if_neg hplus, hm, hn]
    rfl
  · have hx : (UInt8.ofNat (16 * m + n)).toNat = 16 * m + n := by
      rw [UInt8.toNat_ofNat']
      exact Nat.mod_eq_of_lt (by omega)
    rw [Wire.byteHex, hx, show (16 * m + n) / 16 = m by omega,
      show (16 * m + n) % 16 = n by omega, hma, hnb]

/-- An even number of digits is accepted, and written again in lower case. -/
theorem hexBytes_of_isHex : ∀ cs : List Char, (∀ c ∈ cs, IsHex c) → Value.bytes cs % 2 = 0 →
    ∃ bs, hexBytes cs = some bs ∧ bs.flatMap Wire.byteHex = cs.map Char.toLower
  | [], _, _ => ⟨[], rfl, rfl⟩
  | [a], h, heven => by
    have ha := IsHex.utf8Size (h a List.mem_cons_self)
    rw [Value.bytes_cons, Value.bytes_nil, ha] at heven
    omega
  | a :: b :: rest, h, heven => by
    have ha := h a List.mem_cons_self
    have hb := h b (List.mem_cons_of_mem _ List.mem_cons_self)
    have hrest : ∀ c ∈ rest, IsHex c := fun c hc =>
      h c (List.mem_cons_of_mem _ (List.mem_cons_of_mem _ hc))
    rw [Value.bytes_cons, Value.bytes_cons, ha.utf8Size, hb.utf8Size] at heven
    obtain ⟨x, hx, hwrite⟩ := ha.pair hb
    obtain ⟨bs, hbs, hlower⟩ := hexBytes_of_isHex rest hrest (by omega)
    refine ⟨x :: bs, by rw [hexBytes, hx, hbs]; rfl, ?_⟩
    rw [List.flatMap_cons, hwrite, hlower]
    rfl

/-- The walk meets characters that are no number before it cuts one. -/
def StopsEarly : List Char → Prop
  | [] => False
  | [a] => a.utf8Size = 2
  | a :: b :: rest =>
    a.utf8Size = 2 ∨ a.utf8Size = 1 ∧ b.utf8Size = 1 ∧ (hexPair a b = none ∨ StopsEarly rest)

/-- The walk cuts a character before it meets one that is no number. -/
def Cuts : List Char → Prop
  | [] => False
  | [a] => a.utf8Size ≠ 2
  | a :: b :: rest =>
    a.utf8Size ≠ 2 ∧ (a.utf8Size = 1 ∧ b.utf8Size = 1 → hexPair a b ≠ none ∧ Cuts rest)

theorem hexWalk_pair {a b : Char} (rest : List Char) (ha : a.utf8Size = 1) (hb : b.utf8Size = 1) :
    hexWalk (a :: b :: rest) = match hexPair a b with
      | none => .ok none
      | some x => (hexWalk rest).map fun r => r.map (x :: ·) := by
  rw [hexWalk, if_neg (by omega), if_pos ⟨ha, hb⟩]

theorem hexWalk_eq_error_iff : ∀ cs : List Char, hexWalk cs = .error .charBoundary ↔ Cuts cs
  | [] => by simp [hexWalk, Cuts]
  | [a] => by
    unfold hexWalk Cuts
    split <;> simp [*]
  | a :: b :: rest => by
    have ih := hexWalk_eq_error_iff rest
    by_cases h2 : a.utf8Size = 2
    · simp [hexWalk, Cuts, h2]
    · by_cases h11 : a.utf8Size = 1 ∧ b.utf8Size = 1
      · rw [hexWalk_pair rest h11.1 h11.2, Cuts]
        cases hpair : hexPair a b with
        | none => simp [h11]
        | some x =>
          simp only [ne_eq, not_false_iff, h11, and_self, true_imp_iff, reduceCtorEq, true_and]
          rw [← ih]
          cases hexWalk rest <;> simp [Except.map]
      · rw [hexWalk, if_neg h2, if_neg h11]
        simp [Cuts, h2, h11]

theorem hexWalk_eq_none_iff : ∀ cs : List Char, hexWalk cs = .ok none ↔ StopsEarly cs
  | [] => by simp [hexWalk, StopsEarly]
  | [a] => by
    unfold hexWalk StopsEarly
    split <;> simp [*]
  | a :: b :: rest => by
    have ih := hexWalk_eq_none_iff rest
    by_cases h2 : a.utf8Size = 2
    · simp [hexWalk, StopsEarly, h2]
    · by_cases h11 : a.utf8Size = 1 ∧ b.utf8Size = 1
      · rw [hexWalk_pair rest h11.1 h11.2, StopsEarly]
        cases hpair : hexPair a b with
        | none => simp [h11]
        | some x =>
          simp only [h11, reduceCtorEq, true_and, false_or]
          rw [← ih]
          cases hw : hexWalk rest with
          | error e => simp [Except.map]
          | ok r => cases r <;> simp [Except.map]
      · rw [hexWalk, if_neg h2, if_neg h11]
        simp only [StopsEarly, h2, false_or, reduceCtorEq, false_iff]
        rintro ⟨ha, hb, -⟩
        exact h11 ⟨ha, hb⟩

/-- What the walk reads is what the digits say, and only that. -/
theorem hexWalk_eq_some_iff : ∀ (cs : List Char) (bs : List UInt8),
    hexWalk cs = .ok (some bs) ↔ hexBytes cs = some bs
  | [], bs => by simp [hexWalk, hexBytes]
  | [a], bs => by
    unfold hexWalk hexBytes
    split <;> simp
  | a :: b :: rest, bs => by
    have ih := hexWalk_eq_some_iff rest
    rw [hexBytes]
    cases hpair : hexPair a b with
    | none =>
      have hwalk : hexWalk (a :: b :: rest) ≠ .ok (some bs) := by
        unfold hexWalk
        split
        · simp
        · split
          · simp [hpair]
          · simp
      simp [hwalk]
    | some x =>
      obtain ⟨ha, hb⟩ := utf8Size_of_hexPair hpair
      rw [hexWalk_pair rest ha hb, hpair, Option.bind_some]
      simp only
      cases hw : hexWalk rest with
      | error e =>
        have hnone : hexBytes rest = none := by
          cases hr : hexBytes rest with
          | none => rfl
          | some r => cases hw.symm.trans ((ih r).mpr hr)
        simp [Except.map, hnone]
      | ok r =>
        have hr : hexBytes rest = r := by
          cases r with
          | none =>
            cases hr : hexBytes rest with
            | none => rfl
            | some r => cases hw.symm.trans ((ih r).mpr hr)
          | some r => exact (ih r).mp hw
        rw [hr]
        simp [Except.map]

theorem hexBytes_even : ∀ {cs : List Char} {bs : List UInt8}, hexBytes cs = some bs →
    Value.bytes cs % 2 = 0
  | [], _, _ => rfl
  | [_], _, h => nomatch h
  | a :: b :: rest, bs, h => by
    obtain ⟨x, hx, hrest⟩ := Option.bind_eq_some_iff.mp h
    obtain ⟨bs', hbs', -⟩ := Option.map_eq_some_iff.mp hrest
    have ih := hexBytes_even hbs'
    obtain ⟨ha, hb⟩ := utf8Size_of_hexPair hx
    rw [Value.bytes_cons, Value.bytes_cons, ha, hb]
    omega

/-- What is decoded is what the model without panics decodes. -/
theorem Panicking.hexDecode_eq_some_iff (s : String) (bs : List UInt8) :
    Panicking.hexDecode s = .ok (some bs) ↔ PolisMemory.hexDecode s = some bs := by
  by_cases hodd : Value.bytes (trim s).toList % 2 ≠ 0
  · rw [Panicking.hexDecode_of_odd hodd, PolisMemory.hexDecode]
    exact Iff.intro (fun h => by simp at h) fun h => absurd (hexBytes_even h) hodd
  · rw [Panicking.hexDecode_of_even (not_not.mp hodd), PolisMemory.hexDecode]
    exact hexWalk_eq_some_iff _ _

/-- There a panic stands as a refusal. -/
theorem hexDecode_eq (s : String) : hexDecode s = (Panicking.hexDecode s).toOption.join := by
  cases hp : Panicking.hexDecode s with
  | error e =>
    cases hd : hexDecode s with
    | none => rfl
    | some bs => exact nomatch hp.symm.trans ((Panicking.hexDecode_eq_some_iff s bs).mpr hd)
  | ok r =>
    cases r with
    | none =>
      cases hd : hexDecode s with
      | none => rfl
      | some bs => exact nomatch hp.symm.trans ((Panicking.hexDecode_eq_some_iff s bs).mpr hd)
    | some bs => exact (Panicking.hexDecode_eq_some_iff s bs).mp hp

/-- Who stops meets a character that is no digit. -/
theorem StopsEarly.not_isHex : ∀ {cs : List Char}, StopsEarly cs → ¬∀ c ∈ cs, IsHex c
  | [a], h, hhex => by
    have ha := IsHex.utf8Size (hhex a List.mem_cons_self)
    rw [StopsEarly] at h
    omega
  | a :: b :: rest, h, hhex => by
    have ha := hhex a List.mem_cons_self
    have hb := hhex b (List.mem_cons_of_mem _ List.mem_cons_self)
    rcases h with h2 | ⟨-, -, hpair | hrest⟩
    · have := ha.utf8Size
      omega
    · obtain ⟨x, hx, -⟩ := ha.pair hb
      exact nomatch hx.symm.trans hpair
    · exact hrest.not_isHex fun c hc =>
        hhex c (List.mem_cons_of_mem _ (List.mem_cons_of_mem _ hc))

-- a trimmed text is not to be evaluated where one of these is an expected type
attribute [irreducible] StopsEarly Cuts hexWalk

/-- The grammar, for one text: no panic, accepted exactly as hexadecimal
digits of an even number, and written again in lower case. -/
structure ExactOn (s : String) : Prop where
  total : ∃ r, Panicking.hexDecode s = .ok r
  accepts : (∃ bs, Panicking.hexDecode s = .ok (some bs)) ↔
    Value.bytes (trim s).toList % 2 = 0 ∧ ∀ c ∈ (trim s).toList, IsHex c
  encodes : ∀ bs, Panicking.hexDecode s = .ok (some bs) →
    hexEncode bs = String.ofList ((trim s).toList.map Char.toLower)

/-- Of odd length, or digits only, or no number before a character is cut. -/
def Legible (s : String) : Prop :=
  Value.bytes (trim s).toList % 2 ≠ 0 ∨ (∀ c ∈ (trim s).toList, IsHex c) ∨ StopsEarly (trim s).toList

theorem exactOn_iff (s : String) : ExactOn s ↔ Legible s := by
  by_cases hodd : Value.bytes (trim s).toList % 2 ≠ 0
  · have hdecode := Panicking.hexDecode_of_odd hodd
    refine ⟨fun _ => Or.inl hodd, fun _ => ⟨⟨none, hdecode⟩, ?_, ?_⟩⟩
    · simp [hdecode, hodd]
    · intro bs hbs
      exact nomatch hdecode.symm.trans hbs
  · have heven := not_not.mp hodd
    have hdecode := Panicking.hexDecode_of_even heven
    by_cases hhex : ∀ c ∈ (trim s).toList, IsHex c
    · obtain ⟨bs, hbs, hlower⟩ := hexBytes_of_isHex _ hhex heven
      have hok : Panicking.hexDecode s = .ok (some bs) :=
        hdecode.trans ((hexWalk_eq_some_iff _ bs).mpr hbs)
      refine ⟨fun _ => Or.inr (Or.inl hhex), fun _ => ⟨⟨_, hok⟩, ?_, ?_⟩⟩
      · exact ⟨fun _ => ⟨heven, hhex⟩, fun _ => ⟨bs, hok⟩⟩
      · intro bs' hbs'
        rw [hok, Except.ok.injEq, Option.some.injEq] at hbs'
        rw [← hbs', hexEncode, hlower]
    · constructor
      · intro h
        obtain ⟨r, hr⟩ := h.total
        cases r with
        | none => exact Or.inr (Or.inr ((hexWalk_eq_none_iff _).mp (hdecode.symm.trans hr)))
        | some bs => exact absurd (h.accepts.mp ⟨bs, hr⟩).2 hhex
      · rintro (h | h | h)
        · exact absurd h hodd
        · exact absurd h hhex
        · have hnone : Panicking.hexDecode s = .ok none :=
            hdecode.trans ((hexWalk_eq_none_iff _).mpr h)
          refine ⟨⟨none, hnone⟩, ?_, ?_⟩
          · simp [hnone, hhex]
          · intro bs hbs
            exact nomatch hnone.symm.trans hbs

/-! ### Verification -/

/-- The text is of even length, and the hexWalk over it cuts a character. -/
def CutText (s : String) : Prop :=
  Value.bytes (trim s).toList % 2 = 0 ∧ Cuts (trim s).toList

theorem Panicking.hexDecode_eq_error_iff (s : String) :
    Panicking.hexDecode s = .error .charBoundary ↔ CutText s := by
  by_cases hodd : Value.bytes (trim s).toList % 2 ≠ 0
  · rw [Panicking.hexDecode_of_odd hodd]
    simp [CutText, hodd]
  · have heven := not_not.mp hodd
    rw [Panicking.hexDecode_of_even heven, hexWalk_eq_error_iff, CutText]
    simp [heven]

/-- A text that is not cut is decoded as the model without panics does. -/
theorem Panicking.hexDecode_of_not_cut {s : String} (h : ¬CutText s) :
    Panicking.hexDecode s = .ok (PolisMemory.hexDecode s) := by
  rw [PolisMemory.hexDecode_eq]
  cases hp : Panicking.hexDecode s with
  | error e =>
    cases e
    exact absurd ((Panicking.hexDecode_eq_error_iff s).mp hp) h
  | ok r => rfl

namespace Panicking

variable (w : Wire)

/-- `Identity::verify_hex`: both texts are decoded. -/
def verifyHex (pubkeyHex msg signatureHex : String) : Except Panic Bool := do
  match ← hexDecode pubkeyHex, ← hexDecode signatureHex with
  | some pk, some sig => return w.verifySig pk msg sig
  | _, _ => return false

/-- 1: the human is their key. -/
def verifyHuman (h : Header) : Except Panic (Except VerifyError (String × List UInt8)) :=
  match h.human.pubkey with
  | none => return .error .idMismatch
  | some hex => do
    match ← hexDecode hex with
    | none => return .error .idMismatch
    | some pubkey =>
      if w.principalId pubkey ≠ h.human.principalId ∨ h.human.kind ≠ .human then
        return .error .idMismatch
      else return .ok (hex, pubkey)

/-- 5: a bind for this chain, signed by the same key. -/
def verifyBind (env : Envelope) (pubkeyHex : String) : Except Panic (Option VerifyError) :=
  match env.payload.binds.find? fun b => b.chainId = env.header.chainId with
  | none => return some .noBind
  | some b =>
    if b.device.principalId ≠ env.header.chainId ∨
        b.human.principalId ≠ env.header.human.principalId then return some .noBind
    else do
      let signed ← verifyHex w pubkeyHex (Wire.bindMessage b.chainId b.headHash) b.signature
      if !signed then return some .badBindSignature else return none

/-- `verify`: as `Wire.verify`, with the panics. -/
def verify (env : Envelope) : Except Panic (Except VerifyError Verified) :=
  let h := env.header
  if h.schema ≠ envelopeSchema then return .error (.schema h.schema)
  else do
    match ← verifyHuman w h with
    | .error e => return .error e
    | .ok (pubkeyHex, pubkey) =>
      match w.verifyDevice h pubkey with
      | .error e => return .error e
      | .ok name =>
        let signed ← verifyHex w pubkeyHex (w.headerJson h) env.signature
        if !signed then return .error .badSignature
        else if w.sha256 (w.payloadJson env.payload) ≠ h.payloadSha256 then
          return .error .payloadHash
        else
          match (← verifyBind w env pubkeyHex).or <| (w.verifySegment env).or <|
              (w.verifyBindEvents env).or <| (w.verifyRedactionEvents env).or <|
                env.payload.prompts.findSome? (w.verifyBody env) with
          | some e => return .error e
          | none =>
            return .ok ⟨h.chainId, h.human.principalId, name, h.segment.fromSeq, h.segment.toSeq,
              h.segment.headHash, env.events.length, env.payload.prompts.length,
              env.payload.prompts.countP fun p => p.redaction = .full && p.text.isSome,
              env.payload.binds.length⟩

end Panicking

namespace Wire

variable (w : Wire) (env : Envelope)

/-- The bind that the fifth check decodes the signature of. -/
def bindDecoded : Option BindPayload :=
  (env.payload.binds.find? fun b => b.chainId = env.header.chainId).filter fun b =>
    b.device.principalId = env.header.chainId ∧
      b.human.principalId = env.header.human.principalId

/-- The checks come to a text that is cut: the key, or past the first two
checks the header's signature, or past the next two the bind's. -/
def CutAt : Prop :=
  env.header.schema = envelopeSchema ∧ ∃ hex, env.header.human.pubkey = some hex ∧
    (CutText hex ∨ ∃ pubkey name, w.verifyHuman env.header = .ok (hex, pubkey) ∧
      w.verifyDevice env.header pubkey = .ok name ∧
      (CutText env.signature ∨
        w.verifyHex hex (w.headerJson env.header) env.signature = true ∧
        w.sha256 (w.payloadJson env.payload) = env.header.payloadSha256 ∧
        ∃ b, bindDecoded env = some b ∧ CutText b.signature))

end Wire

theorem Wire.verifyHuman_ok {w : Wire} {h : Header} {hex : String} {pubkey : List UInt8}
    (hok : w.verifyHuman h = .ok (hex, pubkey)) : h.human.pubkey = some hex := by
  unfold Wire.verifyHuman at hok
  split at hok
  · exact nomatch hok
  · rename_i hex' hhex
    split at hok
    · exact nomatch hok
    · split at hok
      · exact nomatch hok
      · rw [Except.ok.injEq, Prod.mk.injEq] at hok
        rw [hhex, hok.1]

namespace Panicking

variable {w : Wire} {env : Envelope} {hex msg sig : String}

theorem verifyHuman_of_cut {h : Header} (hhex : h.human.pubkey = some hex) (hcut : CutText hex) :
    verifyHuman w h = .error .charBoundary := by
  simp only [verifyHuman, hhex, (hexDecode_eq_error_iff hex).mpr hcut]
  rfl

theorem verifyHuman_of_not_cut {h : Header} (hhex : h.human.pubkey = some hex)
    (hcut : ¬CutText hex) : verifyHuman w h = .ok (w.verifyHuman h) := by
  simp only [verifyHuman, Wire.verifyHuman, hhex, hexDecode_of_not_cut hcut, bind, Except.bind,
    pure, Except.pure]
  cases PolisMemory.hexDecode hex with
  | none => rfl
  | some pubkey =>
    simp only
    split <;> rfl

theorem verifyHex_of_cut (hhex : ¬CutText hex) (hsig : CutText sig) :
    verifyHex w hex msg sig = .error .charBoundary := by
  simp only [verifyHex, hexDecode_of_not_cut hhex, (hexDecode_eq_error_iff sig).mpr hsig, bind,
    Except.bind]

theorem verifyHex_of_not_cut (hhex : ¬CutText hex) (hsig : ¬CutText sig) :
    verifyHex w hex msg sig = .ok (w.verifyHex hex msg sig) := by
  simp only [verifyHex, Wire.verifyHex, hexDecode_of_not_cut hhex, hexDecode_of_not_cut hsig, bind,
    Except.bind, pure, Except.pure]
  cases PolisMemory.hexDecode hex with
  | none => rfl
  | some pk => cases PolisMemory.hexDecode sig <;> rfl

theorem verifyBind_eq (hhex : ¬CutText hex) :
    ((∀ b, Wire.bindDecoded env = some b → ¬CutText b.signature) →
      verifyBind w env hex = .ok (w.verifyBind env hex)) ∧
    ((∃ b, Wire.bindDecoded env = some b ∧ CutText b.signature) →
      verifyBind w env hex = .error .charBoundary) := by
  unfold verifyBind Wire.verifyBind Wire.bindDecoded
  cases hfind : env.payload.binds.find? fun b => b.chainId = env.header.chainId with
  | none => simp [pure, Except.pure]
  | some b =>
    by_cases hids : b.device.principalId = env.header.chainId ∧
        b.human.principalId = env.header.human.principalId
    · have hno : ¬(b.device.principalId ≠ env.header.chainId ∨
          b.human.principalId ≠ env.header.human.principalId) := by
        rw [hids.1, hids.2]
        simp
      simp only [Option.filter_some, decide_eq_true hids, if_true, if_neg hno]
      constructor
      · intro hcut
        rw [verifyHex_of_not_cut hhex (hcut b rfl)]
        simp only [bind, Except.bind, pure, Except.pure]
        split <;> rfl
      · rintro ⟨b', hb', hcut⟩
        rw [← Option.some.inj hb'] at hcut
        rw [verifyHex_of_cut hhex hcut]
        rfl
    · have hno : b.device.principalId ≠ env.header.chainId ∨
          b.human.principalId ≠ env.header.human.principalId := by
        by_contra h
        exact hids ⟨not_not.mp fun h1 => h (Or.inl h1), not_not.mp fun h2 => h (Or.inr h2)⟩
      simp only [Option.filter_some, decide_eq_false hids, if_pos hno]
      constructor
      · exact fun _ => rfl
      · rintro ⟨b', hb', -⟩
        exact absurd hb' (by simp)

/-- Where no text that the checks come to is cut, `verify` is what it is
without panics; otherwise it panics. -/
theorem verify_eq (w : Wire) (env : Envelope) :
    (¬w.CutAt env → verify w env = .ok (w.verify env)) ∧
      (w.CutAt env → verify w env = .error .charBoundary) := by
  unfold verify Wire.verify Wire.CutAt
  by_cases hschema : env.header.schema = envelopeSchema
  · simp only [hschema, ne_eq, not_true_eq_false, if_false, true_and]
    cases hpub : env.header.human.pubkey with
    | none =>
      have hhuman : w.verifyHuman env.header = .error .idMismatch := by
        rw [Wire.verifyHuman, hpub]
      have hhuman' : verifyHuman w env.header = .ok (.error .idMismatch) := by
        rw [verifyHuman, hpub]
        rfl
      constructor
      · intro _
        rw [hhuman, hhuman']
        rfl
      · rintro ⟨hex, hhex, -⟩
        cases hhex
    | some hex =>
      by_cases hcut : CutText hex
      · constructor
        · intro h
          exact absurd ⟨hex, rfl, Or.inl hcut⟩ h
        · intro _
          rw [verifyHuman_of_cut hpub hcut]
          rfl
      · rw [verifyHuman_of_not_cut hpub hcut]
        cases hhuman : w.verifyHuman env.header with
        | error e =>
          constructor
          · exact fun _ => rfl
          · rintro ⟨hex', hhex', hcut' | ⟨pubkey, name, hok, -⟩⟩
            · exact absurd (Option.some.inj hhex' ▸ hcut') hcut
            · cases hok
        | ok human =>
          obtain ⟨hex', pubkey⟩ := human
          have hhex' : hex' = hex := Option.some.inj ((Wire.verifyHuman_ok hhuman).symm.trans hpub)
          subst hhex'
          simp only [Option.some.injEq, exists_eq_left', hcut, false_or, Except.ok.injEq,
            Prod.mk.injEq, true_and, bind, Except.bind, pure, Except.pure]
          cases hdevice : w.verifyDevice env.header pubkey with
          | error e => simp [hdevice]
          | ok name =>
            by_cases hsig : CutText env.signature
            · simp [verifyHex_of_cut hcut hsig, hsig, hdevice]
            · rw [verifyHex_of_not_cut hcut hsig]
              by_cases hsigned : w.verifyHex hex' (w.headerJson env.header) env.signature = true
              · by_cases hpayload :
                  w.sha256 (w.payloadJson env.payload) = env.header.payloadSha256
                · obtain ⟨hok, herror⟩ := @verifyBind_eq w env _ hcut
                  constructor
                  · intro hno
                    have hbinds : ∀ b, Wire.bindDecoded env = some b → ¬CutText b.signature :=
                      fun b hb hc => hno ⟨pubkey, name, rfl, hdevice,
                        Or.inr ⟨hsigned, hpayload, b, hb, hc⟩⟩
                    rw [hok hbinds]
                    simp only [hsigned, hpayload, Bool.not_true, Bool.false_eq_true, if_false,
                      not_true_eq_false]
                    generalize Option.or (w.verifyBind env hex') _ = refused
                    cases refused <;> rfl
                  · rintro ⟨-, -, -, -, hsig' | ⟨-, -, b, hb, hc⟩⟩
                    · exact absurd hsig' hsig
                    · rw [herror ⟨b, hb, hc⟩]
                      simp [hsigned, hpayload]
                · simp [hsig, hsigned, hpayload, hdevice]
              · simp [hsig, hsigned, hdevice]
  · simp [hschema]
    rfl

end Panicking

/-- Bytes written in hexadecimal are read back; a text is decoded as the
grammar says exactly if it is legible; and `verify` ends without a panic
exactly if no text that it comes to is cut. -/
theorem hexDecode_exact_iff (bs : List UInt8) (s : String) (w : Wire) (env : Envelope) :
    Panicking.hexDecode (hexEncode bs) = .ok (some bs) ∧
      (ExactOn s ↔ Legible s) ∧
      ((∃ r, Panicking.verify w env = .ok r) ↔ ¬w.CutAt env) := by
  refine ⟨?_, exactOn_iff s, ?_⟩
  · exact (Panicking.hexDecode_eq_some_iff _ bs).mpr (hexDecode_hexEncode bs)
  · obtain ⟨hok, herror⟩ := Panicking.verify_eq w env
    constructor
    · rintro ⟨r, hr⟩ hcut
      exact nomatch hr.symm.trans (herror hcut)
    · exact fun hcut => ⟨_, hok hcut⟩

/-- A sign stands for a digit; a character of three bytes is cut, alone and
as the signature of an envelope. -/
theorem signAndEuro_not_exact :
    Panicking.hexDecode "+f" = .ok (some [15]) ∧
      Panicking.hexDecode "€a" = .error .charBoundary ∧
      Panicking.verify Wire.plain
        { Wire.plainSigned "dev" (Wire.plainPayload []) with signature := "€a" } =
          .error .charBoundary := by
  have heuro : CutText "€a" := by
    have hchars : (trim "€a").toList = ['€', 'a'] := by decide +kernel
    rw [CutText, hchars, Cuts]
    refine ⟨by decide, by decide, ?_⟩
    rintro ⟨h, -⟩
    exact absurd h (by decide)
  refine ⟨by decide +kernel, (Panicking.hexDecode_eq_error_iff _).mpr heuro, ?_⟩
  apply (Panicking.verify_eq _ _).2
  exact ⟨rfl, "a1", rfl, Or.inr ⟨[0xa1], "dev", by decide +kernel, by decide +kernel, Or.inl heuro⟩⟩

end PolisMemory
