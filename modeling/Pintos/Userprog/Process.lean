import Pintos.Library.Links
import Pintos.Library.Steps
import Pintos.Filesys.FreeMap

/-! Processes (`userprog/process.c`, `exec` in `userprog/syscall.c`, and the parts of
`threads/thread.c` that have to do with parents and children).

A process is a thread, and its `struct thread` lies at the start of a page; here it is known by
that page. The threads take turns between any two steps. A parent's list of children runs
through its children's pages, so it is modelled by its links: unlinking a child changes whatever
its two neighbours are by then. A page that is freed can be any new thread's page.

A semaphore is its value: `sema_down` waits until it is positive. `thread_create` puts the new
thread on its parent's list with interrupts on, one store after the other, before it unblocks it. The
end of `thread_exit` is one step: it runs with interrupts off up to the switch to another thread,
which frees the page. -/
namespace Pintos.Userprog
open Intrusive

/-- The nodes of the lists of children: the two ends in the parent's page, and `child_elem`. -/
inductive Node where
  | head (page : Nat)
  | tail (page : Nat)
  | elem (page : Nat)
deriving Repr, DecidableEq

/-- How far `list_insert` is: the links of the new element, the one of the last element, the one of the list's tail. -/
inductive Push where
  | elem
  | last
  | tail
deriving Repr, DecidableEq

/-- Where a thread is. Children are named by their `tid`, and `at` is the loop variable of a walk. -/
inductive Pc where
  | user
  /-- `thread_create`: `list_push_back` of the new thread, at `page`, on `children_list`. -/
  | push (stage : Push) (child page : Nat)
  /-- `process_execute`, once `thread_create` has returned. -/
  | execWd (child : Nat)
  | execReopen (child dir : Nat)
  /-- `get_thread`, along `all_list`, to store the working directory. -/
  | execStoreWd (child : Nat) (dir at_ : Option Nat)
  /-- `get_thread`, to wait for `load_done`. -/
  | execFind (child : Nat) (at_ : Option Nat)
  | execDown (child page : Nat)
  /-- `get_thread` in `exec`. -/
  | execStatus (child : Nat) (at_ : Option Nat)
  /-- `process_wait`: `get_child_thread`, along `children_list`. -/
  | waitFind (child : Nat) (at_ : Node)
  | waitDown (child page : Nat)
  | waitUp (child page : Nat) (value : Int)
  /-- `start_process`: `load`, up to the path of the executable. -/
  | start (relative : Bool)
  /-- `get_working_directory`, when the field was null. -/
  | openRoot
  | storeRoot (dir : Option Nat)
  | resolve
  | opened
  | loaded (success : Bool)
  | loadUp (success : Bool)
  /-- `thread_exit`. -/
  | exitClose
  | exitUp
  | exitBegin
  | exitLoop (at_ : Node)
  | exitNext (at_ : Node)
  | processExit
  | exitDown
  | exitGone
deriving Repr, DecidableEq

/-- `struct thread`. -/
structure Proc where
  tid : Nat
  parentTid : Nat
  /-- The page of the parent, whose list `child_elem` was put on. -/
  parent : Nat
  pc : Pc
  /-- `thread_create` has not unblocked it. -/
  blocked : Bool
  exitValue : Int
  waitOnCalled : Bool
  loadSuccessStatus : Bool
  exited : Nat
  canFree : Nat
  loadDone : Nat
  /-- The inode of the working directory; none stands for null. -/
  workingDirectory : Option Nat
deriving Repr, DecidableEq

inductive Event where
  /-- With the parent's working directory. -/
  | created (parent child : Nat) (wd : Option Nat)
  /-- A relative path, looked up from `base`. -/
  | resolved (child : Nat) (base : Option Nat)
  | loaded (child : Nat) (success : Bool)
  /-- User code starts, with this working directory and these directories held open for it. -/
  | started (child : Nat) (wd : Option Nat) (held : List Nat)
  | exiting (tid : Nat) (status : Int)
  | execReturned (parent child : Nat) (result : Option Nat)
  | waitRefused (parent child : Nat)
  | waitReturned (parent child : Nat) (status : Int)
deriving Repr, DecidableEq

structure Kernel where
  procs : Nat → Option Proc
  /-- The pages of the threads in `all_list`. -/
  allList : List Nat
  links : Links Node
  nextTid : Nat
  /-- The `struct dir`s opened as working directories: for whom, and on which inode. -/
  refs : List (Nat × Nat)
  /-- What has happened, the newest first. -/
  log : List Event

/-- Why a thread cannot take a step: it has to wait, it uses memory that is not what it takes it for, or it
is not there to take it. -/
inductive Fault where
  | waits
  | badPointer
  | unable
deriving Repr, DecidableEq

/-- What a thread chooses when it can, or what it meets: a system call, a page for a new thread, the outcome of
`load`, and that there is no memory for a `struct dir`. After a `chdir` that gets none the field is null. -/
inductive Choice where
  | go
  | noMemory
  | exec (page : Nat) (relative : Bool)
  | wait (child : Nat)
  | exit (status : Int)
  | kill
  | chdir (dir : Option Nat)
  | load (success : Bool)
deriving Repr, DecidableEq

def initialTid : Nat := 1

def Kernel.get (s : Kernel) (page : Nat) : Except Fault Proc :=
  match s.procs page with
  | some t => .ok t
  | none => .error .badPointer

def Kernel.modify (s : Kernel) (page : Nat) (f : Proc → Proc) : Kernel :=
  {s with procs := Function.update s.procs page ((s.procs page).map f)}

def Kernel.goto (s : Kernel) (page : Nat) (pc : Pc) : Kernel := s.modify page fun t => {t with pc := pc}

def Kernel.note (s : Kernel) (e : Event) : Kernel := {s with log := e :: s.log}

/-- `list_next`. -/
def Kernel.listNext (s : Kernel) (e : Node) : Except Fault Node :=
  match s.links.next e with
  | some e' => .ok e'
  | none => .error .badPointer

/-- The element after one of `all_list`. -/
def nextInAll (l : List Nat) (page : Nat) : Except Fault (Option Nat) :=
  match l.dropWhile (· != page) with
  | [] => .error .badPointer
  | _ :: rest => .ok rest.head?

/-- The inodes of the directories held open for a thread. -/
def Kernel.held (s : Kernel) (tid : Nat) : List Nat := (s.refs.filter (·.1 == tid)).map Prod.snd

/-- `dir_open`, if it succeeds. -/
def Kernel.addRef (s : Kernel) (tid : Nat) (dir : Option Nat) : Kernel :=
  match dir with
  | none => s
  | some d => {s with refs := (tid, d) :: s.refs}

/-- `dir_close` of a working directory. -/
def Kernel.dropRef (s : Kernel) (tid : Nat) (dir : Option Nat) : Kernel :=
  match dir with
  | none => s
  | some d => {s with refs := s.refs.erase (tid, d)}

/-! ### `thread_create` and the end of `thread_exit` -/

/-- What `thread_create` makes of a zeroed page. -/
def newProc (tid parentTid parent : Nat) (relative : Bool) : Proc where
  tid := tid
  parentTid := parentTid
  parent := parent
  pc := .start relative
  blocked := true
  exitValue := -1
  waitOnCalled := false
  loadSuccessStatus := false
  exited := 0
  canFree := 0
  loadDone := 0
  workingDirectory := none

/-- A new thread on a free page, before the thread at `p` puts it on its list. -/
def threadCreate (s : Kernel) (p : Nat) (t : Proc) (page : Nat) (relative : Bool) : Except Fault Kernel := do
  if (s.procs page).isSome then throw .unable
  return {s with
    procs := Function.update s.procs page (some (newProc s.nextTid t.tid p relative))
    allList := s.allList ++ [page]
    links := s.links.init (.head page) (.tail page)
    nextTid := s.nextTid + 1
    log := .created t.tid s.nextTid t.workingDirectory :: s.log}

/-- `list_push_back` on the list of the thread at `p`, and then the new thread is unblocked. -/
def pushStep (s : Kernel) (p child page : Nat) : Push → Except Fault Kernel
  | .elem => .ok ({s with links := s.links.insertOwn (.tail p) (.elem page)}.goto p (.push .last child page))
  | .last =>
    match s.links.insertNext (.tail p) (.elem page) with
    | none => .error .badPointer
    | some links => .ok ({s with links := links}.goto p (.push .tail child page))
  | .tail => .ok (({s with links := s.links.insertPrev (.tail p) (.elem page)}.modify page fun t =>
      {t with blocked := false}).goto p (.execWd child))

/-- The links of a page that has been freed and filled. -/
def clearPage (L : Links Node) (page : Nat) : Links Node :=
  let wipe (f : Node → Option Node) := Function.update (Function.update (Function.update f (.head page) none)
    (.tail page) none) (.elem page) none
  ⟨wipe L.next, wipe L.prev⟩

/-- The thread at `p` unlinks itself from both lists, and its page is freed. -/
def threadGone (s : Kernel) (p : Nat) : Except Fault Kernel :=
  match s.links.remove (.elem p) with
  | none => .error .badPointer
  | some links => .ok {s with
      procs := Function.update s.procs p none
      allList := s.allList.erase p
      links := clearPage links p}

/-! ### Steps

Each group of steps is a function of the state, the thread's page and what is in it. -/

/-- A system call, of a thread in user mode. -/
def callStep (s : Kernel) (p : Nat) (t : Proc) : Choice → Except Fault Kernel
  | .exec page relative => do
    let s' ← threadCreate s p t page relative
    return s'.goto p (.push .elem s.nextTid page)
  | .wait child => do return s.goto p (.waitFind child (← s.listNext (.head p)))
  | .exit status =>
    if t.tid = initialTid then .error .unable
    else .ok ((s.note (.exiting t.tid status)).modify p fun t => {t with exitValue := status, pc := .exitClose})
  | .kill =>
    if t.tid = initialTid then .error .unable
    else .ok ((s.note (.exiting t.tid (-1))).modify p fun t => {t with exitValue := -1, pc := .exitClose})
  | .chdir dir =>
    .ok (((s.dropRef t.tid t.workingDirectory).addRef t.tid dir).modify p fun t => {t with workingDirectory := dir})
  | _ => .error .unable

/-- One round of `get_thread`: the thread is found, the list is at its end, or the walk goes on. -/
inductive Sought where
  | found (page : Nat) (t : Proc)
  | missing
  | further (at_ : Option Nat)

def getThread (s : Kernel) (tid : Nat) : Option Nat → Except Fault Sought
  | none => .ok .missing
  | some q => do
    let t ← s.get q
    if t.tid = tid then return .found q t
    return .further (← nextInAll s.allList q)

/-- `dir_reopen` of the working directory, which gives null without memory. -/
def reopenStep (s : Kernel) (p child dir : Nat) : Choice → Except Fault Kernel
  | .go => .ok ((s.addRef child (some dir)).goto p (.execStoreWd child (some dir) s.allList.head?))
  | .noMemory => .ok (s.goto p (.execStoreWd child none s.allList.head?))
  | _ => .error .unable

/-- `process_execute`, and what `exec` does after it. -/
def execStep (s : Kernel) (p : Nat) (t : Proc) : Pc → Except Fault Kernel
  | .execWd child =>
    match t.workingDirectory with
    | none => .ok (s.goto p (.execFind child s.allList.head?))
    | some dir => .ok (s.goto p (.execReopen child dir))
  | .execStoreWd child dir at_ => do
    match ← getThread s child at_ with
    | .missing => throw .badPointer
    | .further at' => return s.goto p (.execStoreWd child dir at')
    | .found q _ =>
      return (s.modify q fun t => {t with workingDirectory := dir}).goto p (.execFind child s.allList.head?)
  | .execFind child at_ => do
    match ← getThread s child at_ with
    | .missing => throw .badPointer
    | .further at' => return s.goto p (.execFind child at')
    | .found q _ => return s.goto p (.execDown child q)
  | .execDown child q => do
    let tq ← s.get q
    if tq.loadDone = 0 then throw .waits
    return (s.modify q fun t => {t with loadDone := t.loadDone - 1}).goto p (.execStatus child s.allList.head?)
  | .execStatus child at_ => do
    match ← getThread s child at_ with
    | .missing => return (s.note (.execReturned t.tid child none)).goto p .user
    | .further at' => return s.goto p (.execStatus child at')
    | .found _ tq =>
      return (s.note (.execReturned t.tid child (if tq.loadSuccessStatus then some child else none))).goto p .user
  | _ => .error .unable

/-- `process_wait`. -/
def waitStep (s : Kernel) (p : Nat) (t : Proc) : Pc → Except Fault Kernel
  | .waitFind child e =>
    if e = .tail p then .ok ((s.note (.waitRefused t.tid child)).goto p .user)
    else
      match e with
      | .elem q => do
        let tq ← s.get q
        if tq.tid = child then
          if tq.waitOnCalled then return (s.note (.waitRefused t.tid child)).goto p .user
          return (s.modify q fun t => {t with waitOnCalled := true}).goto p (.waitDown child q)
        return s.goto p (.waitFind child (← s.listNext e))
      | _ => .error .badPointer
  | .waitDown child q => do
    let tq ← s.get q
    if tq.exited = 0 then throw .waits
    return (s.modify q fun t => {t with exited := t.exited - 1}).goto p (.waitUp child q tq.exitValue)
  | .waitUp child q value => do
    let _ ← s.get q
    return ((s.modify q fun t => {t with canFree := t.canFree + 1}).note (.waitReturned t.tid child value)).goto p .user
  | _ => .error .unable

/-- `start_process`. -/
def loadStep (s : Kernel) (p : Nat) (t : Proc) : Pc → Choice → Except Fault Kernel
  | .start relative, .go =>
    if t.blocked then .error .unable
    else if !relative then .ok (s.goto p .opened)
    else if t.workingDirectory.isSome then .ok (s.goto p .resolve)
    else .ok (s.goto p .openRoot)
  | .openRoot, .go =>
    .ok ((s.addRef t.tid (some Filesys.rootDirSector)).goto p (.storeRoot (some Filesys.rootDirSector)))
  | .openRoot, .noMemory => .ok (s.goto p (.storeRoot none))
  | .storeRoot dir, .go => .ok (s.modify p fun t => {t with workingDirectory := dir, pc := .resolve})
  | .resolve, .go =>
    if t.workingDirectory.isSome then .ok ((s.note (.resolved t.tid t.workingDirectory)).goto p .opened)
    else .error .badPointer
  | .resolve, .noMemory => if t.workingDirectory.isSome then .ok (s.goto p (.loaded false)) else .error .badPointer
  | .opened, .load success => .ok (s.goto p (.loaded success))
  | .loaded success, .go =>
    .ok ((s.note (.loaded t.tid success)).modify p fun t => {t with loadSuccessStatus := success, pc := .loadUp success})
  | .loadUp true, .go =>
    .ok ((s.note (.started t.tid t.workingDirectory (s.held t.tid))).modify p fun t =>
      {t with loadDone := t.loadDone + 1, pc := .user})
  | .loadUp false, .go => .ok (s.modify p fun t => {t with loadDone := t.loadDone + 1, pc := .exitClose})
  | _, _ => .error .unable

/-- `thread_exit`. -/
def exitStep (s : Kernel) (p : Nat) (t : Proc) : Pc → Except Fault Kernel
  | .exitClose => .ok ((s.dropRef t.tid t.workingDirectory).goto p .exitUp)
  | .exitUp => .ok (s.modify p fun t => {t with exited := t.exited + 1, pc := .exitBegin})
  | .exitBegin => do return s.goto p (.exitLoop (← s.listNext (.head p)))
  | .exitLoop e =>
    if e = .tail p then .ok (s.goto p .processExit)
    else
      match e with
      | .elem q => do
        let _ ← s.get q
        return (s.modify q fun t => {t with canFree := t.canFree + 1}).goto p (.exitNext e)
      | _ => .error .badPointer
  | .exitNext e => do return s.goto p (.exitLoop (← s.listNext e))
  | .processExit => .ok (s.modify p fun t => {t with exited := t.exited + 1, pc := .exitDown})
  | .exitDown =>
    if t.canFree = 0 then .error .waits
    else .ok (s.modify p fun t => {t with canFree := t.canFree - 1, pc := .exitGone})
  | .exitGone => threadGone s p
  | _ => .error .unable

structure Act where
  page : Nat
  choice : Choice
deriving Repr, DecidableEq

def step (a : Act) (s : Kernel) : Except Fault Kernel := do
  let t ← s.get a.page
  match t.pc with
  | .user => callStep s a.page t a.choice
  | .push stage child page => if a.choice = .go then pushStep s a.page child page stage else throw .unable
  | .execReopen child dir => reopenStep s a.page child dir a.choice
  | .start _ | .openRoot | .storeRoot _ | .resolve | .opened | .loaded _ | .loadUp _ => loadStep s a.page t t.pc a.choice
  | .execWd _ | .execStoreWd _ _ _ | .execFind _ _ | .execDown _ _ | .execStatus _ _ =>
    if a.choice = .go then execStep s a.page t t.pc else throw .unable
  | .waitFind _ _ | .waitDown _ _ | .waitUp _ _ _ =>
    if a.choice = .go then waitStep s a.page t t.pc else throw .unable
  | _ => if a.choice = .go then exitStep s a.page t t.pc else throw .unable

def idleTid : Nat := 2

/-- The initial thread and the idle thread, which `thread_start` has created and which has nothing to do here. -/
def booted : Kernel where
  procs
    | 0 => some {newProc initialTid 0 0 false with pc := .user, blocked := false}
    | 1 => some (newProc idleTid initialTid 0 false)
    | _ => none
  allList := [0, 1]
  links := ⟨
    fun
      | .head 0 => some (.elem 1)
      | .elem 1 => some (.tail 0)
      | .head 1 => some (.tail 1)
      | _ => none,
    fun
      | .tail 0 => some (.elem 1)
      | .elem 1 => some (.head 0)
      | .tail 1 => some (.head 1)
      | _ => none⟩
  nextTid := idleTid + 1
  refs := []
  log := [.created initialTid idleTid none]

end Pintos.Userprog
