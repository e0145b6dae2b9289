import Durable7.FingerTree.Deque
import Durable7.Hamt.HashMap.Assignments
import Durable7.Hamt.HashMap.Validation

/-!
# Insertion-ordered sets

A deque of stamped items keeps the order, a hash map from items to stamps the membership.  A
stamp between two neighbours is their middle.  Where there is none, every item gets a new
stamp.
-/

namespace Durable7.Ordered

open Foundation FingerTree Hamt HashMap OrderDeque

universe u

inductive PersistentOrderedSet.OrderedError where
  | stampSpaceExhausted
  | invariantFailure
  deriving DecidableEq

def PersistentOrderedSet.OrderedError.message : PersistentOrderedSet.OrderedError → String
  | .stampSpaceExhausted => "PersistentOrderedSet stamp space exhausted"
  | .invariantFailure => "PersistentOrderedSet membership and order indexes disagree"

structure PersistentOrderedSet.Entry (a : Type) where
  entryStamp : Int
  entryItem : a

structure PersistentOrderedSet (D : Type → Type u) (a : Type) where
  order : D (PersistentOrderedSet.Entry a)
  stamps : HashMap a Int

namespace PersistentOrderedSet

variable {D : Type → Type u} [OrderDeque D] {a : Type}

abbrev Outcome (β : Type u) := Except OrderedError β

def stampStride : Int := 1048576

def minBound : Int := -9223372036854775808

def maxBound : Int := 9223372036854775807

/-- Conversion to 64 bits. -/
def fromInteger (value : Int) : Int := Int.bmod value 18446744073709551616

def stampForIndex (index : Nat) : Except OrderedError Int :=
  if index * stampStride > maxBound then .error .stampSpaceExhausted
  else .ok (fromInteger (index * stampStride))

def stampsAscending (entries : List (Entry a)) : Bool :=
  (List.zipWith (fun left right => decide (left.entryStamp < right.entryStamp)) entries
    (entries.drop 1)).and

def pickStamp (order : D (Entry a)) (index : Int) : Option Int :=
  if count order = 0 then some 0
  else if index = 0 then
    (first order).bind fun firstEntry =>
      if firstEntry.entryStamp < minBound + stampStride then none
      else some (fromInteger (firstEntry.entryStamp - stampStride))
  else if index = count order then
    (last order).bind fun lastEntry =>
      if lastEntry.entryStamp > maxBound - stampStride then none
      else some (fromInteger (lastEntry.entryStamp + stampStride))
  else
    (OrderDeque.index (index - 1) order).bind fun leftEntry =>
      (OrderDeque.index index order).bind fun rightEntry =>
        let left := leftEntry.entryStamp
        let gap := rightEntry.entryStamp - left
        if gap < 2 then none else some (fromInteger (left + gap / 2))

/-! ## Indexes -/

def emptyWith (hashPolicy : HashPolicy a) : PersistentOrderedSet D a :=
  ⟨empty, HashMap.emptyWith hashPolicy⟩

def entries (set : PersistentOrderedSet D a) : List (Entry a) := toList set.order

def toList (set : PersistentOrderedSet D a) : List a := (entries set).map Entry.entryItem

def size (set : PersistentOrderedSet D a) : Int := count set.order

omit [OrderDeque D] in
def policy (set : PersistentOrderedSet D a) : HashPolicy a := set.stamps.policy

def null (set : PersistentOrderedSet D a) : Bool := size set == 0

def at? (index : Int) (set : PersistentOrderedSet D a) : Option a :=
  (OrderDeque.index index set.order).map Entry.entryItem

def contains (item : a) (set : PersistentOrderedSet D a) : Bool := member item set.stamps

def actualValue (item : a) (set : PersistentOrderedSet D a) : Option a := actualKey item set.stamps

def makeEntry (item : a) (index : Nat) : Except OrderedError (Entry a) :=
  (stampForIndex index).map fun stamp => ⟨stamp, item⟩

def pairOf (entry : Entry a) : a × Int := (entry.entryItem, entry.entryStamp)

def buildFromItems (hashPolicy : HashPolicy a) (items : List a) :
    Outcome (PersistentOrderedSet D a) :=
  (items.zipIdx.mapM fun numbered => makeEntry numbered.1 numbered.2).bind fun entries =>
    .ok ⟨fromList entries, fromListWith hashPolicy (entries.map pairOf)⟩

def normalize (hashPolicy : HashPolicy a) (items : List a) : List a × HashMap a Unit :=
  let (itemsReversed, membership) := items.foldl (fun state item =>
    if HashMap.member item state.2 then state
    else (item :: state.1, HashMap.insert item () state.2)) ([], HashMap.emptyWith hashPolicy)
  (itemsReversed.reverse, membership)

def distinctInOrder (hashPolicy : HashPolicy a) (items : List a) : List a :=
  (normalize hashPolicy items).1

def fromListWith (hashPolicy : HashPolicy a) (items : List a) :
    Outcome (PersistentOrderedSet D a) :=
  buildFromItems hashPolicy (distinctInOrder hashPolicy items)

def buildIndex (order : D (Entry a)) (hashPolicy : HashPolicy a) : HashMap a Int :=
  HashMap.fromListWith hashPolicy ((OrderDeque.toList order).map pairOf)

def removeEntries (order : D (Entry a)) (stamps : HashMap a Int) : HashMap a Int :=
  (OrderDeque.toList order).foldl (fun current entry => delete entry.entryItem current) stamps

def insertEntry (index : Int) (entry : Entry a) (order : D (Entry a)) : Outcome (D (Entry a)) :=
  match insertAt index entry order with
  | some edited => .ok edited
  | none => .error .invariantFailure

def rebuildInserted (order : D (Entry a)) (index : Int) (item : a) (hashPolicy : HashPolicy a) :
    Outcome (PersistentOrderedSet D a) :=
  let (before, after) := ((OrderDeque.toList order).map Entry.entryItem).splitAt index.toNat
  buildFromItems hashPolicy (before ++ item :: after)

def compareStamp (entry : Entry a) (stamp : Int) : Ordering := compare entry.entryStamp stamp

def indexOfStamp (stamp : Int) (set : PersistentOrderedSet D a) : Except OrderedError Int :=
  let index := OrderDeque.sortedLowerBoundBy compareStamp stamp set.order
  match OrderDeque.index index set.order with
  | some entry => if entry.entryStamp = stamp then .ok index else .error .invariantFailure
  | none => .error .invariantFailure

def indexOf (item : a) (set : PersistentOrderedSet D a) : Except OrderedError Int :=
  match lookup item set.stamps with
  | none => .ok (-1)
  | some stamp => indexOfStamp stamp set

/-! ## Edits -/

def insertCore (index : Int) (item : a) (set : PersistentOrderedSet D a) :
    Outcome (PersistentOrderedSet D a) :=
  match pickStamp set.order index with
  | some stamp =>
      if member item set.stamps then .ok set
      else (insertEntry index ⟨stamp, item⟩ set.order).map fun nextOrder =>
        ⟨nextOrder, insert item stamp set.stamps⟩
  | none =>
      if member item set.stamps then .ok set
      else rebuildInserted set.order index item (policy set)

def add (item : a) (set : PersistentOrderedSet D a) : Outcome (PersistentOrderedSet D a) :=
  insertCore (size set) item set

def addFirst (item : a) (set : PersistentOrderedSet D a) : Outcome (PersistentOrderedSet D a) :=
  insertCore 0 item set

def insertAt (index : Int) (item : a) (set : PersistentOrderedSet D a) :
    Outcome (Option (PersistentOrderedSet D a)) :=
  if index < 0 ∨ index > size set then .ok none else (insertCore index item set).map some

def moveExisting (finalIndex : Int) (item : a) (set : PersistentOrderedSet D a) :
    Outcome (Option (PersistentOrderedSet D a)) :=
  match lookup item set.stamps with
  | none => .ok none
  | some oldStamp =>
      (indexOfStamp oldStamp set).bind fun oldIndex =>
        if oldIndex = finalIndex then .ok (some set)
        else
          match index oldIndex set.order, deleteAt oldIndex set.order with
          | some oldEntry, some trimmed =>
              let stored := oldEntry.entryItem
              match pickStamp trimmed finalIndex with
              | none => (rebuildInserted trimmed finalIndex stored (policy set)).map some
              | some newStamp =>
                  (insertEntry finalIndex ⟨newStamp, stored⟩ trimmed).map fun nextOrder =>
                    some ⟨nextOrder, insert stored newStamp set.stamps⟩
          | _, _ => .ok none

def moveToFirst (item : a) (set : PersistentOrderedSet D a) :
    Outcome (Option (PersistentOrderedSet D a)) :=
  moveExisting 0 item set

def moveToLast (item : a) (set : PersistentOrderedSet D a) :
    Outcome (Option (PersistentOrderedSet D a)) :=
  moveExisting (size set - 1) item set

def moveTo (index : Int) (item : a) (set : PersistentOrderedSet D a) :
    Outcome (Option (PersistentOrderedSet D a)) :=
  if index < 0 ∨ index ≥ size set then .ok none else moveExisting index item set

def tryRemove (item : a) (set : PersistentOrderedSet D a) :
    Outcome (Option (PersistentOrderedSet D a)) :=
  match HashMap.tryRemove item set.stamps with
  | none => .ok none
  | some (stamp, nextStamps) =>
      (indexOfStamp stamp set).bind fun index =>
        .ok ((deleteAt index set.order).map fun nextOrder => ⟨nextOrder, nextStamps⟩)

def delete (item : a) (set : PersistentOrderedSet D a) : Outcome (PersistentOrderedSet D a) :=
  (tryRemove item set).map fun removed => removed.getD set

def deleteAt (index : Int) (set : PersistentOrderedSet D a) :
    Outcome (Option (PersistentOrderedSet D a)) :=
  match OrderDeque.index index set.order, OrderDeque.deleteAt index set.order with
  | some entry, some nextOrder =>
      match HashMap.tryRemove entry.entryItem set.stamps with
      | none => .ok none
      | some (stamp, nextStamps) =>
          if stamp ≠ entry.entryStamp then .error .invariantFailure
          else .ok (some ⟨nextOrder, nextStamps⟩)
  | _, _ => .ok none

def removeFirst (set : PersistentOrderedSet D a) : Outcome (Option (PersistentOrderedSet D a)) :=
  deleteAt 0 set

def removeLast (set : PersistentOrderedSet D a) : Outcome (Option (PersistentOrderedSet D a)) :=
  deleteAt (size set - 1) set

def clear (set : PersistentOrderedSet D a) : PersistentOrderedSet D a :=
  if null set then set else emptyWith (policy set)

def getRange (index count : Int) (set : PersistentOrderedSet D a) :
    Option (PersistentOrderedSet D a) :=
  let total := size set
  if index < 0 ∨ index > total then none
  else if count < 0 ∨ count > total - index then none
  else if count = total then some set
  else if count = 0 then some (emptyWith (policy set))
  else
    (splitAt index set.order).bind fun (before, rest) =>
      (splitAt count rest).map fun (kept, after) =>
        let nextStamps :=
          if count ≤ total - count then buildIndex kept (policy set)
          else removeEntries after (removeEntries before set.stamps)
        ⟨kept, nextStamps⟩

def take (count : Int) (set : PersistentOrderedSet D a) : Option (PersistentOrderedSet D a) :=
  if count < 0 ∨ count > size set then none else getRange 0 count set

def drop (count : Int) (set : PersistentOrderedSet D a) : Option (PersistentOrderedSet D a) :=
  if count < 0 ∨ count > size set then none else getRange count (size set - count) set

def reverse (set : PersistentOrderedSet D a) : Outcome (PersistentOrderedSet D a) :=
  if size set ≤ 1 then .ok set else buildFromItems (policy set) (toList set).reverse

def compareEntry (comparison : a → a → Ordering) (left right : Entry a) : Ordering :=
  match comparison left.entryItem right.entryItem with
  | .eq => compare left.entryStamp right.entryStamp
  | result => result

def sortBy (comparison : a → a → Ordering) (set : PersistentOrderedSet D a) :
    Outcome (PersistentOrderedSet D a) :=
  let sorted := (entries set).mergeSort fun left right => (compareEntry comparison left right).isLE
  if size set ≤ 1 then .ok set
  else if stampsAscending sorted then .ok set
  else buildFromItems (policy set) (sorted.map Entry.entryItem)

def union (other : List a) (set : PersistentOrderedSet D a) : Outcome (PersistentOrderedSet D a) :=
  let additions := (normalize (policy set) other).1.filter fun item => !member item set.stamps
  if additions.isEmpty then .ok set else buildFromItems (policy set) (toList set ++ additions)

def intersection (other : List a) (set : PersistentOrderedSet D a) :
    Outcome (PersistentOrderedSet D a) :=
  let retained := (toList set).filter fun item => member item (normalize (policy set) other).2
  if retained.length = size set then .ok set else buildFromItems (policy set) retained

def difference (other : List a) (set : PersistentOrderedSet D a) :
    Outcome (PersistentOrderedSet D a) :=
  let retained := (toList set).filter fun item => !member item (normalize (policy set) other).2
  if retained.length = size set then .ok set else buildFromItems (policy set) retained

def symmetricDifference (other : List a) (set : PersistentOrderedSet D a) :
    Outcome (PersistentOrderedSet D a) :=
  let (argumentItems, membership) := normalize (policy set) other
  if argumentItems.isEmpty then .ok set
  else
    let receiverOnly := (toList set).filter fun item => !member item membership
    let argumentOnly := argumentItems.filter fun item => !member item set.stamps
    buildFromItems (policy set) (receiverOnly ++ argumentOnly)

def entryMatches (stamps : HashMap a Int) (entry : Entry a) : Bool :=
  lookup entry.entryItem stamps == some entry.entryStamp &&
    (actualKey entry.entryItem stamps).any fun stored =>
      stamps.policy.equalKeys stored entry.entryItem

def validStructure (set : PersistentOrderedSet D a) : Bool :=
  HashMap.validStructure set.stamps &&
    count set.order == (set.stamps.size : Int) &&
    stampsAscending (entries set) && (entries set).all (entryMatches set.stamps)

end PersistentOrderedSet

end Durable7.Ordered
