import EmacDriver.Lib.LinkChain
import EmacDriver.Mdio

namespace EmacDriver
open LinkChain

abbrev ListHeads (α : Type) := Cells α

namespace ListHeads

variable {α : Type} [DecidableEq α]

def initListHead (m : ListHeads α) (list : α) : ListHeads α := m.link list list

/-- `__list_add`. -/
def listAddBetween (m : ListHeads α) (newitem prev next : α) : ListHeads α :=
  (m.link newitem next).link prev newitem

def listAdd (m : ListHeads α) (newitem head : α) : ListHeads α :=
  listAddBetween m newitem head (m.next head)

def listAddTail (m : ListHeads α) (newitem head : α) : ListHeads α :=
  listAddBetween m newitem (m.prev head) head

/-- `__list_del`. -/
def listDelBetween (m : ListHeads α) (prev next : α) : ListHeads α := m.link prev next

/-- `null` is `LIST_POISON1` and `LIST_POISON2`. -/
def listDel (null : α) (m : ListHeads α) (entry : α) : ListHeads α :=
  let m := listDelBetween m (m.prev entry) (m.next entry)
  { next := Function.update m.next entry null, prev := Function.update m.prev entry null }

def listReplace (m : ListHeads α) (old newitem : α) : ListHeads α :=
  let m := m.link newitem (m.next old)
  m.link (m.prev old) newitem

def listReplaceInit (m : ListHeads α) (old newitem : α) : ListHeads α :=
  initListHead (listReplace m old newitem) old

def listDelInit (m : ListHeads α) (entry : α) : ListHeads α :=
  initListHead (listDelBetween m (m.prev entry) (m.next entry)) entry

def listMove (m : ListHeads α) (list head : α) : ListHeads α :=
  listAdd (listDelBetween m (m.prev list) (m.next list)) list head

def listMoveTail (m : ListHeads α) (list head : α) : ListHeads α :=
  listAddTail (listDelBetween m (m.prev list) (m.next list)) list head

def listIsLast (m : ListHeads α) (list head : α) : Bool := m.next list = head

def listEmpty (m : ListHeads α) (head : α) : Bool := m.next head = head

def listEmptyCareful (m : ListHeads α) (head : α) : Bool :=
  let next := m.next head
  next = head && next = m.prev head

def listIsSingular (m : ListHeads α) (head : α) : Bool :=
  !listEmpty m head && m.next head = m.prev head

/-- `__list_cut_position`. -/
def listCutBetween (m : ListHeads α) (list head entry : α) : ListHeads α :=
  let newitemFirst := m.next entry
  ((m.link list (m.next head)).link entry list).link head newitemFirst

def listCutPosition (m : ListHeads α) (list head entry : α) : ListHeads α :=
  if listEmpty m head then m
  else if listIsSingular m head && (m.next head ≠ entry && head ≠ entry) then m
  else if entry = head then initListHead m list
  else listCutBetween m list head entry

/-- `__list_splice`. -/
def listSpliceBetween (m : ListHeads α) (list prev next : α) : ListHeads α :=
  let first := m.next list
  let last := m.prev list
  (m.link prev first).link last next

def listSplice (m : ListHeads α) (list head : α) : ListHeads α :=
  if listEmpty m list then m else listSpliceBetween m list head (m.next head)

def listSpliceTail (m : ListHeads α) (list head : α) : ListHeads α :=
  if listEmpty m list then m else listSpliceBetween m list (m.prev head) head

def listSpliceInit (m : ListHeads α) (list head : α) : ListHeads α :=
  if listEmpty m list then m
  else initListHead (listSpliceBetween m list head (m.next head)) list

def listSpliceTailInit (m : ListHeads α) (list head : α) : ListHeads α :=
  if listEmpty m list then m
  else initListHead (listSpliceBetween m list (m.prev head) head) list

/-- `list_for_each`: the entries that it goes through from `pos` on. -/
def listForEach (m : ListHeads α) (head : α) : Nat → α → Option (List α)
  | 0, _ => none
  | n + 1, pos =>
    if pos = head then some [] else (listForEach m head n (m.next pos)).map (pos :: ·)

end ListHeads

inductive ListOp (α : Type) where
  | init (list : α)
  | add (newitem head : α)
  | addTail (newitem head : α)
  | del (entry : α)
  | delInit (entry : α)
  | replace (old newitem : α)
  | replaceInit (old newitem : α)
  | move (list head : α)
  | moveTail (list head : α)
  | splice (list head : α)
  | spliceTail (list head : α)
  | spliceInit (list head : α)
  | spliceTailInit (list head : α)
  | cutPosition (list head entry : α)

variable {α : Type} [DecidableEq α]

open ListHeads in
def ListOp.apply (null : α) (m : ListHeads α) : ListOp α → ListHeads α
  | init list => initListHead m list
  | add newitem head => listAdd m newitem head
  | addTail newitem head => listAddTail m newitem head
  | del entry => listDel null m entry
  | delInit entry => listDelInit m entry
  | replace old newitem => listReplace m old newitem
  | replaceInit old newitem => listReplaceInit m old newitem
  | move list head => listMove m list head
  | moveTail list head => listMoveTail m list head
  | splice list head => listSplice m list head
  | spliceTail list head => listSpliceTail m list head
  | spliceInit list head => listSpliceInit m list head
  | spliceTailInit list head => listSpliceTailInit m list head
  | cutPosition list head entry => listCutPosition m list head entry

def listRun (null : α) (m : ListHeads α) (ops : List (ListOp α)) : ListHeads α :=
  ops.foldl (fun m op => op.apply null m) m

end EmacDriver
