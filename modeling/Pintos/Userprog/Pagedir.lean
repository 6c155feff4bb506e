import Pintos.Library.Memory
import Pintos.Library.Steps
import Pintos.Threads.Palloc

/-! Page directories (`userprog/pagedir.c`, `threads/pte.h`, `paging_init` of `threads/init.c`).

A page directory and its page tables are pages of kernel memory, each with 1024 words. An entry is the
physical address of a page with flags in its low bits. Whoever asks for a page gets any that is not in
use, or none: which one, and whether there is one, stands beside each call as its `answer`. -/
namespace Pintos.Pagedir

open UserMemory (pgSize physBase pgOfs ptNo pdNo isUserVaddr ptov)

def pteAddr : Nat := 0xfffff000
def pteP : Nat := 0x1
def pteW : Nat := 0x2
def pteU : Nat := 0x4
def pteA : Nat := 0x20
def pteD : Nat := 0x40

def vtop (va : Nat) : Nat := va - physBase

def pdeCreate (pt : Nat) : Nat := vtop pt ||| pteU ||| pteP ||| pteW
def pdeGetPt (pde : Nat) : Nat := ptov (pde &&& pteAddr)
def pteCreateKernel (page : Nat) (writable : Bool) : Nat := vtop page ||| pteP ||| if writable then pteW else 0
def pteCreateUser (page : Nat) (writable : Bool) : Nat := pteCreateKernel page writable ||| pteU
def pteGetPage (pte : Nat) : Nat := ptov (pte &&& pteAddr)

/-- An entry, present, whose physical address `ptov` accepts. -/
def readable (entry : Nat) : Bool := entry &&& pteP != 0 && (entry &&& pteAddr) < physBase

inductive Fault where
  | assert
  | panic
  /-- An access to an address without memory. -/
  | fault
  /-- Not a page that `palloc_get_page` could have returned. -/
  | unable
deriving Repr, DecidableEq

def check (cond : Bool) : Except Fault Unit := if cond then .ok () else .error .assert

/-- Kernel memory, the pages in use, and as a history variable those that were freed, newest first. -/
structure State where
  mem : Bytes
  used : Finset Nat
  freed : List Nat

namespace State

def word (s : State) (a : Nat) : Nat := s.mem.wordAt a

def store (s : State) (a v : Nat) : State := { s with mem := s.mem.setWordAt a v }

/-- A page is handed out, with its bytes zero or as they were. -/
def take (s : State) (zero : Bool) (page : Nat) : State where
  mem := if zero then s.mem.patch page pgSize fun _ => 0 else s.mem
  used := insert page s.used
  freed := s.freed

/-- A page is given back. -/
def drop (s : State) (page : Nat) : State where
  mem := s.mem.patch page pgSize fun _ => 0xcc
  used := s.used.erase page
  freed := page :: s.freed

end State

/-- The kernel virtual address of a page of memory. -/
def IsPage (ramPages p : Nat) : Prop := p % pgSize = 0 ∧ physBase ≤ p ∧ p < physBase + ramPages * pgSize

instance (ramPages p : Nat) : Decidable (IsPage ramPages p) := inferInstanceAs (Decidable (_ ∧ _))

section
variable (ramPages : Nat)

def pallocGetPage (zero : Bool) (answer : Option Nat) (s : State) : Except Fault (Option Nat × State) :=
  match answer with
  | none => .ok (none, s)
  | some page =>
    if IsPage ramPages page ∧ page ∉ s.used then .ok (some page, s.take zero page) else .error .unable

def pallocFreePage (page : Nat) (s : State) : Except Fault State := do
  check (pgOfs page = 0)
  check (page ∈ s.used)
  return s.drop page

/-! ### Boot -/

/-- The table for the page at `vaddr` in `paging_init`: a new one if the entry is zero, else that of the round before. -/
def kernelTable (pde : Nat) (answer : Option Nat) (pt : Nat) (s : State) : Except Fault (Nat × State) :=
  if s.word pde = 0 then do
    match ← pallocGetPage ramPages true answer s with
    | (none, _) => .error .panic
    | (some pt, s) => return (pt, s.store pde (pdeCreate pt))
  else .ok (pt, s)

/-- One round of the loop of `paging_init`, for the page number `page`; `pt` is the page table of the round before. -/
def pagingRound (initPageDir : Nat) (writable : Nat → Bool) (answers : Nat → Option Nat) (r : Nat × State) (page : Nat) :
    Except Fault (Nat × State) := do
  let vaddr := ptov (page * pgSize)
  let (pt, s) ← kernelTable ramPages (initPageDir + 4 * pdNo vaddr) (answers page) r.1 r.2
  return (pt, s.store (pt + 4 * ptNo vaddr) (pteCreateKernel vaddr (writable page)))

/-- The loop of `paging_init`, with the page directory that it fills. -/
def pagingLoop (writable : Nat → Bool) (answers : Nat → Option Nat) : Option Nat × State → Except Fault (Nat × State)
  | (none, _) => .error .panic
  | (some initPageDir, s) => do
    let (_, s) ← (List.range ramPages).foldlM (pagingRound ramPages initPageDir writable answers) (0, s)
    return (initPageDir, s)

/-- `paging_init`. `writable` says of each page whether it is not in the kernel's text. -/
def pagingInit (writable : Nat → Bool) (answer : Option Nat) (answers : Nat → Option Nat) (s : State) :
    Except Fault (Nat × State) := do
  pagingLoop ramPages writable answers (← pallocGetPage ramPages true answer s)

/-! ### Page directories -/

def pagedirCreate (initPageDir : Nat) (answer : Option Nat) (s : State) : Except Fault (Option Nat × State) := do
  match ← pallocGetPage ramPages false answer s with
  | (none, s) => return (none, s)
  | (some pd, s) => return (some pd, { s with mem := s.mem.patch pd pgSize fun i => s.mem (initPageDir + i) })

/-- The end of `lookup_page`: the address of the entry in the table that the directory entry at `pde` points to. -/
def entryOf (s : State) (pde vaddr : Nat) : Except Fault (Option Nat × State) := do
  check (readable (s.word pde))
  return (some (pdeGetPt (s.word pde) + 4 * ptNo vaddr), s)

/-- The part of `lookup_page` that creates the page table. -/
def createTable (pde vaddr : Nat) (answer : Option Nat) (s : State) : Except Fault (Option Nat × State) := do
  match ← pallocGetPage ramPages true answer s with
  | (none, s) => return (none, s)
  | (some pt, s) => entryOf (s.store pde (pdeCreate pt)) pde vaddr

def lookupPage (pd vaddr : Nat) (create : Bool) (answer : Option Nat) (s : State) :
    Except Fault (Option Nat × State) := do
  check (pd ≠ 0)
  check (!create || isUserVaddr vaddr)
  let pde := pd + 4 * pdNo vaddr
  if s.word pde = 0 then if create then createTable ramPages pde vaddr answer s else return (none, s)
  else entryOf s pde vaddr

/-- The end of `pagedir_set_page`: the entry is set, if there is one. -/
def setEntry (kpage : Nat) (writable : Bool) : Option Nat × State → Except Fault (Bool × State)
  | (some pte, s) => do
    check (s.word pte &&& pteP = 0)
    return (true, s.store pte (pteCreateUser kpage writable))
  | (none, s) => return (false, s)

def pagedirSetPage (initPageDir pd upage kpage : Nat) (writable : Bool) (answer : Option Nat) (s : State) :
    Except Fault (Bool × State) := do
  check (pgOfs upage = 0)
  check (pgOfs kpage = 0)
  check (isUserVaddr upage)
  check (!isUserVaddr kpage && vtop kpage / pgSize < ramPages)
  check (pd ≠ initPageDir)
  setEntry kpage writable (← lookupPage ramPages pd upage true answer s)

def pagedirGetPage (pd uaddr : Nat) (s : State) : Except Fault (Option Nat) := do
  check (isUserVaddr uaddr)
  match ← lookupPage ramPages pd uaddr false none s with
  | (some pte, s) =>
    if s.word pte &&& pteP ≠ 0 then
      check ((s.word pte &&& pteAddr) < physBase)
      return some (pteGetPage (s.word pte) + pgOfs uaddr)
    else return none
  | (none, _) => return none

def pagedirClearPage (pd upage : Nat) (s : State) : Except Fault State := do
  check (pgOfs upage = 0)
  check (isUserVaddr upage)
  match ← lookupPage ramPages pd upage false none s with
  | (some pte, s) => if s.word pte &&& pteP ≠ 0 then return s.store pte (s.word pte &&& 0xfffffffe) else return s
  | (none, s) => return s

/-- The processor uses a user address: it marks the entry as accessed, and for a store as dirty. -/
def touch (pd uaddr : Nat) (dirty : Bool) (s : State) : Except Fault State := do
  check (isUserVaddr uaddr)
  match ← lookupPage ramPages pd uaddr false none s with
  | (some pte, s) =>
    if s.word pte &&& pteP ≠ 0 then return s.store pte (s.word pte ||| pteA ||| if dirty then pteD else 0) else return s
  | (none, s) => return s

/-- The body of the inner loop of `pagedir_destroy`: the entry `j` of a page table. -/
def freeEntry (pt : Nat) (s : State) (j : Nat) : Except Fault State :=
  let pte := s.word (pt + 4 * j)
  if pte &&& pteP ≠ 0 then do
    check ((pte &&& pteAddr) < physBase)
    pallocFreePage (pteGetPage pte) s
  else .ok s

/-- The body of the outer loop: the entry `i` of the directory. -/
def freeTable (pd : Nat) (s : State) (i : Nat) : Except Fault State :=
  let pde := s.word (pd + 4 * i)
  if pde &&& pteP ≠ 0 then do
    check (readable pde)
    let s ← (List.range 1024).foldlM (freeEntry (pdeGetPt pde)) s
    pallocFreePage (pdeGetPt pde) s
  else .ok s

def pagedirDestroy (initPageDir pd : Nat) (s : State) : Except Fault State :=
  if pd = 0 then .ok s
  else do
    check (pd ≠ initPageDir)
    let s ← (List.range (pdNo physBase)).foldlM (freeTable pd) s
    pallocFreePage pd s

end

end Pintos.Pagedir
