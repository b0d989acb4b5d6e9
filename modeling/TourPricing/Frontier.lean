import TourPricing.Route

namespace TourPricing

/-- Waiting stops with their values, the next one first. -/
structure Frontier (β : Type) where
  entries : List (Stop × β)

namespace Frontier

variable {β : Type}

def single (s : Stop) (b : β) : Frontier β :=
  ⟨[(s, b)]⟩

def get? (F : Frontier β) (s : Stop) : Option β :=
  F.entries.lookup s

/-- The entries with the value of one stop replaced, or with the stop put into its place. -/
def insertEntry (s : Stop) (b : β) : List (Stop × β) → List (Stop × β)
  | [] => [(s, b)]
  | (t, c) :: rest =>
    if s = t then (s, b) :: rest
    else if s.before t then (s, b) :: (t, c) :: rest
    else (t, c) :: insertEntry s b rest

/-- Gives a stop a value, which makes it wait if it did not. -/
def set (F : Frontier β) (s : Stop) (b : β) : Frontier β :=
  ⟨insertEntry s b F.entries⟩

/-- Settles the stops of a frontier in order, at most `limit` of them. Settling a stop may add stops
to the frontier. -/
def sweep {σ : Type} (settle : Stop → β → Frontier β → σ → Frontier β × σ) :
    (limit : Nat) → Frontier β → σ → σ
  | 0, _, acc => acc
  | limit + 1, F, acc =>
    match F.entries with
    | [] => acc
    | (s, b) :: rest =>
      let (F, acc) := settle s b ⟨rest⟩ acc
      sweep settle limit F acc

end Frontier

end TourPricing
