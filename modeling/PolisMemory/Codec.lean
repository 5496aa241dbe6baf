/-
# Codecs

Ways to write a value as characters and to read it back from the front of a
text, whatever follows it. Numbers are written in unary, a list after its
length, a pair one after the other; a type with a codec lends it to every type
it can be read into.

Key definitions: `Codec`, `Codec.nat`, `Codec.list`, `Codec.prod`, `Codec.map`.
Key theorem: `Codec.decode_encode`.
-/
import Mathlib.Data.Int.Basic

namespace PolisMemory

/-- A value written as characters, and read back. -/
structure Codec (α : Type) where
  enc : α → List Char
  dec : List Char → Option (α × List Char)
  dec_enc : ∀ a rest, dec (enc a ++ rest) = some (a, rest)

namespace Codec

variable {α β : Type}

/-- A text is read to its end. -/
def decode (c : Codec α) (text : String) : Option α := (c.dec text.toList).map Prod.fst

def encode (c : Codec α) (a : α) : String := String.ofList (c.enc a)

theorem decode_encode (c : Codec α) (a : α) : c.decode (c.encode a) = some a := by
  have hread := c.dec_enc a []
  rw [List.append_nil] at hread
  rw [decode, encode, String.toList_ofList, hread, Option.map_some]

/-- One character. -/
def char : Codec Char where
  enc c := [c]
  dec
    | [] => none
    | c :: rest => some (c, rest)
  dec_enc _ _ := rfl

/-- Strokes, then a stop. -/
def readNat : List Char → Option (ℕ × List Char)
  | '|' :: rest => (readNat rest).map fun n => (n.1 + 1, n.2)
  | '.' :: rest => some (0, rest)
  | _ => none

def nat : Codec ℕ where
  enc n := List.replicate n '|' ++ ['.']
  dec := readNat
  dec_enc n rest := by
    induction n with
    | zero => rfl
    | succ n ih =>
      rw [List.replicate_succ, List.cons_append, List.cons_append, readNat, ih, Option.map_some]

/-- One after the other. -/
def prod (c : Codec α) (d : Codec β) : Codec (α × β) where
  enc x := c.enc x.1 ++ d.enc x.2
  dec text := (c.dec text).bind fun a => (d.dec a.2).map fun b => ((a.1, b.1), b.2)
  dec_enc x rest := by
    rw [List.append_assoc, c.dec_enc, Option.bind_some, d.dec_enc, Option.map_some]

/-- Read as another type. -/
def map (c : Codec α) (f : α → β) (g : β → α) (hfg : ∀ b, f (g b) = b) : Codec β where
  enc b := c.enc (g b)
  dec text := (c.dec text).map fun a => (f a.1, a.2)
  dec_enc b rest := by
    rw [c.dec_enc, Option.map_some, hfg]

/-- So many values in a row. -/
def readMany (c : Codec α) : ℕ → List Char → Option (List α × List Char)
  | 0, text => some ([], text)
  | n + 1, text => (c.dec text).bind fun a =>
    (c.readMany n a.2).map fun as => (a.1 :: as.1, as.2)

theorem readMany_flatMap (c : Codec α) (as : List α) (rest : List Char) :
    c.readMany as.length (as.flatMap c.enc ++ rest) = some (as, rest) := by
  induction as with
  | nil => rfl
  | cons a as ih =>
    rw [List.flatMap_cons, List.append_assoc, List.length_cons, readMany, c.dec_enc, Option.bind_some,
      ih, Option.map_some]

/-- The length, then the values. -/
def list (c : Codec α) : Codec (List α) where
  enc as := nat.enc as.length ++ as.flatMap c.enc
  dec text := (nat.dec text).bind fun n => c.readMany n.1 n.2
  dec_enc as rest := by
    rw [List.append_assoc, nat.dec_enc, Option.bind_some, c.readMany_flatMap]

def option (c : Codec α) : Codec (Option α) :=
  c.list.map List.head? Option.toList fun o => by cases o <;> rfl

def string : Codec String :=
  char.list.map String.ofList String.toList fun _ => String.ofList_toList

def bool : Codec Bool := nat.map (· = 1) Bool.toNat fun b => by cases b <;> rfl

/-- The sign, then the absolute value. -/
def int : Codec ℤ :=
  (bool.prod nat).map (fun x => if x.1 = true then -(x.2 : ℤ) else x.2) (fun z => (z < 0, z.natAbs))
    fun z => by
      show (if decide (z < 0) = true then -(z.natAbs : ℤ) else z.natAbs) = z
      by_cases hz : z < 0
      · rw [if_pos (decide_eq_true hz)]
        omega
      · rw [if_neg (by simpa using hz)]
        omega

end Codec

end PolisMemory
