/-! # Forests

Ordered trees with a value at each node, and the cuts and grafts that edit them. The node that an
operation is about is given by a test on its value.
-/

namespace ModularScale

/-- A first tree, with its value and its children, and the trees beside it. -/
inductive Forest (α : Type u)
  | nil
  | cons (a : α) (children rest : Forest α)
deriving DecidableEq, Repr

namespace Forest

variable {α : Type u} {β : Type v}

def append : Forest α → Forest α → Forest α
  | nil, g => g
  | cons a children rest, g => cons a children (rest.append g)

instance : Append (Forest α) := ⟨append⟩

/-- All values, each before those of its children. -/
def toList : Forest α → List α
  | nil => []
  | cons a children rest => a :: (children.toList ++ rest.toList)

/-- The values of the topmost nodes. -/
def tops : Forest α → List α
  | nil => []
  | cons a _ rest => a :: rest.tops

def map (f : α → β) : Forest α → Forest β
  | nil => nil
  | cons a children rest => cons (f a) (children.map f) (rest.map f)

def single (a : α) (children : Forest α) : Forest α :=
  cons a children nil

/-- The first node that passes the test, with all below it. -/
def find? (p : α → Bool) : Forest α → Option (α × Forest α)
  | nil => none
  | cons a children rest =>
    if p a then some (a, children) else (children.find? p).or (rest.find? p)

/-- The values above the first node that passes the test, the nearest first. -/
def above? (p : α → Bool) : Forest α → Option (List α)
  | nil => none
  | cons a children rest =>
    if p a then some [] else ((children.above? p).map (· ++ [a])).or (rest.above? p)

/-- Drops the nodes that pass the test and all below them. -/
def erase (p : α → Bool) : Forest α → Forest α
  | nil => nil
  | cons a children rest =>
    if p a then rest.erase p else cons a (children.erase p) (rest.erase p)

def modify (p : α → Bool) (f : α → α) : Forest α → Forest α
  | nil => nil
  | cons a children rest =>
    cons (if p a then f a else a) (children.modify p f) (rest.modify p f)

/-- Puts a forest behind the last child of the node that passes the test. -/
def appendTo (p : α → Bool) (new : Forest α) : Forest α → Forest α
  | nil => nil
  | cons a children rest =>
    if p a then cons a (children ++ new) rest
    else cons a (appendTo p new children) (appendTo p new rest)

def insertBefore (p : α → Bool) (new : Forest α) : Forest α → Forest α
  | nil => nil
  | cons a children rest =>
    if p a then new ++ cons a children rest
    else cons a (insertBefore p new children) (insertBefore p new rest)

def insertAfter (p : α → Bool) (new : Forest α) : Forest α → Forest α
  | nil => nil
  | cons a children rest =>
    if p a then cons a children (new ++ rest)
    else cons a (insertAfter p new children) (insertAfter p new rest)

/-- Numbers all nodes from `next` on, each before its children; also gives the next free number. -/
def number (next : Nat) : Forest α → Forest (Nat × α) × Nat
  | nil => (nil, next)
  | cons a children rest =>
    let below := children.number (next + 1)
    let beside := rest.number below.2
    (cons (next, a) below.1 beside.1, beside.2)

@[simp] theorem nil_append (g : Forest α) : nil ++ g = g := rfl

@[simp] theorem cons_append (a : α) (c r g : Forest α) : cons a c r ++ g = cons a c (r ++ g) := rfl

@[simp] theorem append_nil (f : Forest α) : f ++ nil = f := by
  induction f with
  | nil => rfl
  | cons a c r _ ih => rw [cons_append, ih]

theorem append_assoc (f g h : Forest α) : f ++ g ++ h = f ++ (g ++ h) := by
  induction f with
  | nil => rfl
  | cons a c r _ ih => simp only [cons_append, ih]

theorem append_left_cancel {f g h : Forest α} (he : f ++ g = f ++ h) : g = h := by
  induction f with
  | nil => exact he
  | cons a c r _ ih => exact ih (cons.inj he).2.2

@[simp] theorem toList_append (f g : Forest α) : (f ++ g).toList = f.toList ++ g.toList := by
  induction f with
  | nil => rfl
  | cons a c r _ ih => simp [toList, ih]

@[simp] theorem tops_append (f g : Forest α) : (f ++ g).tops = f.tops ++ g.tops := by
  induction f with
  | nil => rfl
  | cons a c r _ ih => simp [tops, ih]

theorem map_append (h : α → β) (f g : Forest α) : (f ++ g).map h = f.map h ++ g.map h := by
  induction f with
  | nil => rfl
  | cons a c r _ ih => simp only [cons_append, map, ih]

theorem map_map (f : α → β) (g : β → γ) (t : Forest α) : (t.map f).map g = t.map (g ∘ f) := by
  induction t with
  | nil => rfl
  | cons a c r ihc ihr => simp only [map, ihc, ihr, Function.comp_apply]

theorem toList_map (f : α → β) (t : Forest α) : (t.map f).toList = t.toList.map f := by
  induction t with
  | nil => rfl
  | cons a c r ihc ihr => simp [map, toList, ihc, ihr]

theorem tops_map (f : α → β) (t : Forest α) : (t.map f).tops = t.tops.map f := by
  induction t with
  | nil => rfl
  | cons a c r _ ih => simp [map, tops, ih]

theorem find?_eq_none_iff {p : α → Bool} {f : Forest α} :
    f.find? p = none ↔ ∀ a ∈ f.toList, p a = false := by
  induction f with
  | nil => simp [find?, toList]
  | cons a c r ihc ihr => grind [find?, toList]

theorem above?_isSome (p : α → Bool) (f : Forest α) :
    (f.above? p).isSome = (f.find? p).isSome := by
  induction f with
  | nil => rfl
  | cons a c r ihc ihr => grind [find?, above?]

/-- Numbering gives each node a number of its own, in document order. -/
theorem toList_number (next : Nat) (f : Forest α) :
    (f.number next).1.toList.map Prod.fst = List.range' next f.toList.length ∧
      (f.number next).2 = next + f.toList.length := by
  induction f generalizing next with
  | nil => simp [number, toList]
  | cons a c r ihc ihr =>
    obtain ⟨hc, hn⟩ := ihc (next + 1)
    obtain ⟨hr, hm⟩ := ihr (next + 1 + c.toList.length)
    constructor
    · simp only [number, toList, List.map_cons, List.map_append, List.length_cons,
        List.length_append, hc, hn, hr, List.range'_succ, List.range'_append_1]
    · simp only [number, toList, hn, hm, List.length_cons, List.length_append]
      omega

theorem map_snd_number (next : Nat) (f : Forest α) : (f.number next).1.map Prod.snd = f := by
  induction f generalizing next with
  | nil => rfl
  | cons a c r ihc ihr => simp [number, map, ihc, ihr]

end Forest

end ModularScale
