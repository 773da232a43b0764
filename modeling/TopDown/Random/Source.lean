-- Streams of random words, and a choice among alternatives made from them. A stream has a given
-- length and goes on with zeros, so that every choice comes to an end.

namespace TopDown

/-- What choices are drawn from: each is one of `n + 1` alternatives. -/
class Chooser (σ : Type) where
  choose (n : Nat) : σ → Fin (n + 1) × σ

structure WordStream where
  word : Nat → UInt64
  length : Nat

namespace WordStream

/-- The words of a list. -/
def ofList (ws : List UInt64) : WordStream := ⟨fun i => ws.getD i 0, ws.length⟩

/-- The word with this number, zero past the end. -/
def get (s : WordStream) (i : Nat) : UInt64 := if i < s.length then s.word i else 0

end WordStream

/-- A stream of which some words are drawn. -/
structure Source where
  stream : WordStream
  drawn : Nat

namespace Source

def ofStream (s : WordStream) : Source := ⟨s, 0⟩

/-- The next word. -/
def peek (s : Source) : UInt64 := s.stream.get s.drawn

def advance (s : Source) : Source := { s with drawn := s.drawn + 1 }

/-- A word times `k`: the high half chooses among `k` alternatives, and the low half tells whether
the word is fit to choose. -/
def spread (k : Nat) (w : UInt64) : Nat := w.toNat * k

/-- The largest low half that is fit: below it lies the same number of words for each
alternative. It is the largest product of `k` and a power of two, less one. -/
def zone (k : Nat) : Nat := k <<< (63 - k.log2) - 1

def isFit (k : Nat) (w : UInt64) : Bool := decide (spread k w % UInt64.size ≤ zone k)

theorem spread_lt (n : Nat) (w : UInt64) : spread (n + 1) w / UInt64.size < n + 1 := by
  have h := w.toNat_lt_size
  refine Nat.div_lt_of_lt_mul ?_
  exact Nat.mul_lt_mul_of_pos_right h (by omega)

theorem isFit_zero (k : Nat) : isFit k 0 = true := by simp [isFit, spread]

/-- The alternative among `n + 1` that a word chooses. -/
def alternative (n : Nat) (w : UInt64) : Fin (n + 1) :=
  ⟨spread (n + 1) w / UInt64.size, spread_lt n w⟩

/-- Draw words until one is fit; after `fuel` of them the next one is taken as it is. -/
def chooseWithin (n : Nat) : Nat → Source → Fin (n + 1) × Source
  | 0, s => (alternative n s.peek, s.advance)
  | fuel + 1, s =>
    if isFit (n + 1) s.peek then (alternative n s.peek, s.advance)
    else chooseWithin n fuel s.advance

/-- Choose one of `n + 1` alternatives by the first word that is fit. Past the end of the stream
comes zero, which always is. -/
def choose (n : Nat) (s : Source) : Fin (n + 1) × Source :=
  chooseWithin n (s.stream.length - s.drawn) s

/-- The bound on the words never decides: an unfit word is passed over, however many were. -/
theorem choose_eq (n : Nat) (s : Source) :
    choose n s =
      if isFit (n + 1) s.peek then (alternative n s.peek, s.advance) else choose n s.advance := by
  unfold choose
  by_cases h : s.drawn < s.stream.length
  · have hfuel : s.stream.length - s.drawn =
        s.advance.stream.length - s.advance.drawn + 1 := by
      simp only [advance]
      omega
    rw [hfuel, chooseWithin]
  · have hpeek : s.peek = 0 := if_neg h
    rw [Nat.sub_eq_zero_of_le (by omega), chooseWithin, hpeek, if_pos (isFit_zero _)]

instance : Chooser Source := ⟨choose⟩

end Source

end TopDown
