/-!
# Names from bytes

The strings of an object file are bytes that are UTF-8 by convention only.  `Utf8.decode` reads
them without ever failing: a run of bytes that starts like a character but does not finish as one
becomes a single replacement character, and reading goes on at the byte that broke the run.

The reader is a machine with one state, the character that is being assembled, if any.
-/

namespace TargetLink.Utf8

/-- A character whose first bytes are read. -/
structure Unfinished where
  bits : Nat
  missing : Nat
  /-- The least next byte that keeps the character well formed. -/
  low : UInt8
  /-- The greatest next byte that keeps the character well formed. -/
  high : UInt8

/-- Stands for a run of bytes that is no character. -/
def replacement : Char := Char.ofNat 0xfffd

/-- What a byte outside of any character starts: a whole character or an unfinished one.

The ranges of the second byte leave out overlong spellings, surrogates and numbers above
`0x10ffff`. -/
def start (b : UInt8) : Char ⊕ Unfinished :=
  let n := b.toNat
  if n < 0x80 then .inl (Char.ofNat n)
  else if n < 0xc2 then .inl replacement
  else if n < 0xe0 then .inr ⟨n % 0x20, 1, 0x80, 0xbf⟩
  else if n = 0xe0 then .inr ⟨n % 0x10, 2, 0xa0, 0xbf⟩
  else if n = 0xed then .inr ⟨n % 0x10, 2, 0x80, 0x9f⟩
  else if n < 0xf0 then .inr ⟨n % 0x10, 2, 0x80, 0xbf⟩
  else if n = 0xf0 then .inr ⟨n % 0x08, 3, 0x90, 0xbf⟩
  else if n < 0xf4 then .inr ⟨n % 0x08, 3, 0x80, 0xbf⟩
  else if n = 0xf4 then .inr ⟨n % 0x08, 3, 0x80, 0x8f⟩
  else .inl replacement

/-- The characters of a run of bytes, given the unfinished character in front of it. -/
def decodeFrom : Option Unfinished → List UInt8 → List Char
  | none, [] => []
  | some _, [] => [replacement]
  | none, b :: bs =>
    match start b with
    | .inl c => c :: decodeFrom none bs
    | .inr p => decodeFrom (some p) bs
  | some p, b :: bs =>
    if p.low ≤ b ∧ b ≤ p.high then
      let bits := p.bits * 64 + b.toNat % 64
      if p.missing ≤ 1 then Char.ofNat bits :: decodeFrom none bs
      else decodeFrom (some ⟨bits, p.missing - 1, 0x80, 0xbf⟩) bs
    else
      match start b with
      | .inl c => replacement :: c :: decodeFrom none bs
      | .inr q => replacement :: decodeFrom (some q) bs

def decode (bs : List UInt8) : String := String.ofList (decodeFrom none bs)

end TargetLink.Utf8
