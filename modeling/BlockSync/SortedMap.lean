/-! Finite maps as lists of pairs with strictly increasing keys. Two maps with the same look-ups
are equal, and walking the list walks the keys in order. -/

namespace BlockSync

structure SortedMap (α β : Type) [Ord α] where
  entries : List (α × β)
  sorted : entries.Pairwise (fun a b => compare a.1 b.1 = .lt)
deriving DecidableEq

namespace SortedMap

variable {α β γ : Type} [Ord α]

def empty : SortedMap α β := ⟨[], .nil⟩

instance : EmptyCollection (SortedMap α β) := ⟨empty⟩

instance : Inhabited (SortedMap α β) := ⟨empty⟩

def keys (m : SortedMap α β) : List α := m.entries.map Prod.fst

def values (m : SortedMap α β) : List β := m.entries.map Prod.snd

def size (m : SortedMap α β) : Nat := m.entries.length

def isEmpty (m : SortedMap α β) : Bool := m.entries.isEmpty

def find? (m : SortedMap α β) (k : α) : Option β :=
  (m.entries.find? fun e => compare k e.1 == .eq).map Prod.snd

def contains (m : SortedMap α β) (k : α) : Bool := (m.find? k).isSome

/-- Puts a pair in its place, in the stead of one with the same key. -/
def place (k : α) (v : β) : List (α × β) → List (α × β)
  | [] => [(k, v)]
  | e :: rest =>
    match compare k e.1 with
    | .lt => (k, v) :: e :: rest
    | .eq => (k, v) :: rest
    | .gt => e :: place k v rest

theorem mem_place {k : α} {v : β} {e : α × β} {l : List (α × β)} (h : e ∈ place k v l) :
    e = (k, v) ∨ e ∈ l := by
  induction l with
  | nil => simpa [place] using h
  | cons x l ih =>
    simp only [place] at h
    split at h <;> grind

theorem pairwise_place [Std.TransOrd α] {k : α} {v : β} {l : List (α × β)}
    (h : l.Pairwise (fun a b => compare a.1 b.1 = .lt)) :
    (place k v l).Pairwise (fun a b => compare a.1 b.1 = .lt) := by
  induction l with
  | nil => simp [place]
  | cons x l ih =>
    rw [List.pairwise_cons] at h
    simp only [place]
    split
    next hk =>
      refine .cons (fun a ha => ?_) (.cons h.1 h.2)
      rcases List.mem_cons.mp ha with rfl | ha
      · exact hk
      · exact Std.TransCmp.lt_trans hk (h.1 a ha)
    next hk =>
      exact .cons (fun a ha => Std.TransCmp.lt_of_eq_of_lt hk (h.1 a ha)) h.2
    next hk =>
      refine .cons (fun a ha => ?_) (ih h.2)
      rcases mem_place ha with rfl | ha
      · exact Std.OrientedCmp.lt_of_gt hk
      · exact h.1 a ha

def insert [Std.TransOrd α] (m : SortedMap α β) (k : α) (v : β) : SortedMap α β :=
  ⟨place k v m.entries, pairwise_place m.sorted⟩

def filter (m : SortedMap α β) (p : α → β → Bool) : SortedMap α β :=
  ⟨m.entries.filter fun e => p e.1 e.2, m.sorted.filter _⟩

def erase (m : SortedMap α β) (k : α) : SortedMap α β :=
  m.filter fun k' _ => compare k k' != .eq

def map (m : SortedMap α β) (f : α → β → γ) : SortedMap α γ :=
  ⟨m.entries.map fun e => (e.1, f e.1 e.2), m.sorted.map _ fun _ _ h => h⟩

/-- Of two pairs with the same key the later one stays. -/
def ofList [Std.TransOrd α] (l : List (α × β)) : SortedMap α β :=
  l.foldl (fun m e => m.insert e.1 e.2) ∅

end SortedMap

end BlockSync
