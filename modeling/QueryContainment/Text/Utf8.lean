namespace QueryContainment.Text

abbrev Bytes := List UInt8

def replacement : Char := Char.ofNat 0xfffd

/-- A character whose first bytes have been read. -/
structure Unfinished where
  /-- The bits read so far. -/
  value : Nat
  /-- How many bytes are to come. -/
  missing : Nat
  /-- The bounds of the next byte. -/
  low : Nat
  high : Nat

/-- What a byte begins: a character of its own, a longer one, or none. -/
inductive FirstByte where
  | whole (c : Char)
  | part (p : Unfinished)
  | invalid

def firstByte (b : Nat) : FirstByte :=
  if b < 0x80 then .whole (Char.ofNat b)
  else if 0xc2 ≤ b ∧ b ≤ 0xdf then .part ⟨b - 0xc0, 1, 0x80, 0xbf⟩
  else if b = 0xe0 then .part ⟨0, 2, 0xa0, 0xbf⟩
  else if b = 0xed then .part ⟨0xd, 2, 0x80, 0x9f⟩
  else if 0xe1 ≤ b ∧ b ≤ 0xef then .part ⟨b - 0xe0, 2, 0x80, 0xbf⟩
  else if b = 0xf0 then .part ⟨0, 3, 0x90, 0xbf⟩
  else if 0xf1 ≤ b ∧ b ≤ 0xf3 then .part ⟨b - 0xf0, 3, 0x80, 0xbf⟩
  else if b = 0xf4 then .part ⟨4, 3, 0x80, 0x8f⟩
  else .invalid

/--
Goes on reading. A byte that belongs to no character is replaced, and so is, as a whole, the
longest beginning of a character that is never completed.
-/
def decodeAfter : Option Unfinished → Bytes → List Char
  | none, [] => []
  | some _, [] => [replacement]
  | p, b :: rest =>
    let begin (p : Option Unfinished) : List Char × Option Unfinished :=
      let before := if p.isSome then [replacement] else []
      match firstByte b.toNat with
      | .whole c => (before ++ [c], none)
      | .part q => (before, some q)
      | .invalid => (before ++ [replacement], none)
    let (chars, next) := match p with
      | some q =>
        if q.low ≤ b.toNat ∧ b.toNat ≤ q.high then
          let value := q.value * 64 + (b.toNat - 0x80)
          if q.missing = 1 then ([Char.ofNat value], none)
          else ([], some ⟨value, q.missing - 1, 0x80, 0xbf⟩)
        else begin p
      | none => begin none
    chars ++ decodeAfter next rest

def decode (b : Bytes) : String := String.ofList (decodeAfter none b)

def encode (s : String) : Bytes := s.toUTF8.toList

end QueryContainment.Text
