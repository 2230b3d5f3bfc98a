/-
FNV-1a over 64 bits.

The state is a word and a byte is folded in by an exclusive or and one
wrapping multiplication.  The prime is odd, so a step is a bijection of the
states, and two states that differ stay different when the same bytes follow.
-/

namespace Scrape.Fnv

/-- The state before any byte. -/
def offsetBasis : UInt64 := 14695981039346656037

/-- The odd factor of a step, `2 ^ 40 + 435`. -/
def prime : UInt64 := 1099511628211

/-- The byte that ends a field.  No text has it among its UTF-8 bytes. -/
def separator : UInt8 := 0xFF

/-- Folds one byte into the state. -/
def step (h : UInt64) (b : UInt8) : UInt64 :=
  (h ^^^ b.toUInt64) * prime

/-- Folds a run of bytes into the state, first byte first. -/
def fold (h : UInt64) (bytes : List UInt8) : UInt64 :=
  bytes.foldl step h

/-- The eight bytes of a word, the least significant one first. -/
def wordBytes (w : UInt64) : List UInt8 :=
  [w.toUInt8, (w >>> 8).toUInt8, (w >>> 16).toUInt8, (w >>> 24).toUInt8,
    (w >>> 32).toUInt8, (w >>> 40).toUInt8, (w >>> 48).toUInt8, (w >>> 56).toUInt8]

/-- Folds the eight bytes of a word into the state. -/
def foldWord (h w : UInt64) : UInt64 :=
  fold h (wordBytes w)

/-- The hash of a run of bytes. -/
def hash (bytes : List UInt8) : UInt64 :=
  fold offsetBasis bytes

@[simp] theorem fold_nil (h : UInt64) : fold h [] = h := rfl

@[simp] theorem fold_cons (h : UInt64) (b : UInt8) (bytes : List UInt8) :
    fold h (b :: bytes) = fold (step h b) bytes := rfl

@[simp] theorem fold_append (h : UInt64) (p q : List UInt8) :
    fold h (p ++ q) = fold (fold h p) q := by
  simp [fold]

end Scrape.Fnv
