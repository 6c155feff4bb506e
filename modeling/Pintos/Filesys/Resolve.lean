import Pintos.Filesys.Path
import Pintos.Filesys.Names
import Pintos.Filesys.Runs

/-! What a path names.

A path is its non-empty components, read from the root or from the working directory. All of them
but the last lead from directory to directory; the last one is the name, which may be there or
not. `get_name_and_dir_from_path` takes the components off the path one by one, one ahead of the
directory it stands in, and comes to the same. -/
namespace Pintos.Filesys
open Outcome

/-! ### Components -/

def components (path : CString) : List CString := (path.splitOnP (· == slash)).filter (!·.isEmpty)

section
variable {path : CString} {c : UInt8}

@[simp] theorem components_nil : components [] = [] := rfl

@[simp] theorem components_slash (path : CString) : components (slash :: path) = components path := by
  unfold components
  rw [List.splitOnP_cons_eq_if_modifyHead, if_pos (by simp)]
  rfl

theorem components_dropSlashes (path : CString) : components (path.dropWhile (· == slash)) = components path := by
  induction path with
  | nil => rfl
  | cons c path ih =>
    by_cases hc : c = slash
    · rw [hc, components_slash, List.dropWhile_cons_of_pos (by simp), ih]
    · rw [List.dropWhile_cons_of_neg (by simpa using hc)]

theorem length_components (path : CString) : (components path).length ≤ path.length + 1 := by
  have hsplit : (path.splitOnP (· == slash)).length ≤ path.length + 1 := by
    induction path with
    | nil => simp
    | cons c path ih =>
      rw [List.splitOnP_cons_eq_if_modifyHead]
      split <;> simp <;> omega
  exact (List.length_filter_le _ _).trans hsplit

/-- Up to the next slash it is one component. -/
theorem components_token (hc : path.head? = some c) (hs : c ≠ slash) :
    components path = path.takeWhile (· != slash) :: components (path.dropWhile (· != slash)) := by
  have hplain : ∀ x ∈ path.takeWhile (· != slash), (x == slash) = false := by
    intro x hx
    simpa using List.mem_takeWhile_imp hx
  have hne : (path.takeWhile (· != slash)).isEmpty = false := by
    cases path with
    | nil => cases hc
    | cons x path =>
      cases hc
      rw [List.takeWhile_cons_of_pos (by simpa using hs)]
      rfl
  have hsplit := List.takeWhile_append_dropWhile (p := (· != slash)) (l := path)
  cases hd : path.dropWhile (· != slash) with
  | nil =>
    rw [hd, List.append_nil] at hsplit
    rw [hsplit] at hplain hne ⊢
    unfold components
    rw [List.splitOnP_eq_singleton hplain]
    simp [hne]
  | cons x rest =>
    have hx : x = slash := by
      have := List.head_dropWhile_not (· != slash) (l := path) (by rw [hd]; simp)
      simpa [hd] using this
    rw [hd] at hsplit
    rw [hx, components_slash]
    conv_lhs => rw [← hsplit, hx]
    unfold components
    rw [List.splitOnP_append_cons_of_forall_mem hplain slash (by simp), List.filter_cons, hne]
    rfl

/-- What has been taken off the path. -/
def Takes (path : CString) : NextToken → Prop
  | .atEnd => components path = []
  | .tooLong => ∃ c cs, components path = c :: cs ∧ nameMax < c.length
  | .token c rest => components path = c :: components rest ∧ c.length ≤ nameMax

theorem nextToken_takes (path : CString) : Takes path (nextToken path) := by
  unfold nextToken
  have hdrop := components_dropSlashes path
  cases hp : path.dropWhile (· == slash) with
  | nil =>
    rw [hp] at hdrop
    exact hdrop.symm
  | cons c p =>
    have hc : c ≠ slash := by
      have := List.head_dropWhile_not (· == slash) (l := path) (by rw [hp]; simp)
      simpa [hp] using this
    rw [hp, components_token rfl hc] at hdrop
    simp only [List.isEmpty_cons, Bool.false_eq_true, if_false]
    split
    · rename_i hlong
      exact ⟨_, _, hdrop.symm, hlong⟩
    · rename_i hshort
      exact ⟨hdrop.symm, Nat.not_lt.mp hshort⟩

theorem isRootPath_iff : isRootPath path = true ↔ path ≠ [] ∧ components path = [] := by
  have hall : path.all (· == slash) = true ↔ components path = [] := by
    induction path with
    | nil => simp
    | cons c p ih =>
      by_cases hc : c = slash
      · simp [hc, ih]
      · rw [components_token rfl hc]
        simp [hc]
  unfold isRootPath
  rw [Bool.and_eq_true, hall]
  simp

end

/-! ### The tree -/

/-- The sector that the directory at sector `i` has for the name. -/
def Store.child (a : Store) (i : Nat) (name : CString) : Option Nat :=
  (a.files i).bind fun f => names f.bytes name

def Store.isDirectory (a : Store) (i : Nat) : Bool := (a.files i).any Obj.isDir

/-- From directory to directory along the names. -/
def Store.descend (a : Store) : Nat → List CString → Option Nat
  | i, [] => some i
  | i, c :: cs => (a.child i c).bind fun k => if a.isDirectory k then a.descend k cs else none

/-- What a path names, read from the directory `start`. -/
def Store.resolve (a : Store) (start : Nat) (path : CString) : Resolved :=
  let cs := components path
  if ∃ c ∈ cs, nameMax < c.length then .null
  else
    match cs.getLast? with
    | none => if path = [] then .null else ⟨some rootDirSector, some [], some ⟨rootDirSector, 0⟩⟩
    | some name =>
      match a.descend start cs.dropLast with
      | none => .null
      | some dir => ⟨a.child dir name, some name, some ⟨dir, 0⟩⟩

/-- The sector is the root's, or some directory has an entry for it. -/
def Store.Named (a : Store) (k : Nat) : Prop :=
  k = rootDirSector ∨ ∃ i f j x, a.files i = some f ∧ f.isDir = true ∧ entries f.bytes j = some x ∧ x.sector = k

/-- The file at the sector is there to be opened and closed: it has not been removed, and nobody
holds its lock. -/
structure Store.AtRest (ok : Nat → Prop) (a : Store) (k : Nat) : Prop where
  ok : ok k
  file : ∃ f, a.files k = some f
  handle : ∀ h, a.handles k = some h → h.locked = false ∧ h.removed = false

/-- A directory tree: the root is a directory, and every entry of a directory names a file. -/
structure Store.Hierarchy (ok : Nat → Prop) (a : Store) : Prop where
  root : a.isDirectory rootDirSector = true
  named : ∀ k, a.Named k → a.AtRest ok k

/-- The walk along a path, with the component to look up next. -/
def Store.follow (a : Store) : Nat → CString → List CString → Resolved
  | i, c, [] => ⟨a.child i c, some c, some ⟨i, 0⟩⟩
  | i, c, c' :: cs =>
    if nameMax < c'.length then .null
    else
      match a.child i c with
      | none => .null
      | some k => if a.isDirectory k then a.follow k c' cs else .null

namespace Store
variable {a : Store} {i k : Nat} {c : CString} {cs : List CString} {ok : Nat → Prop}

/-- The walk and the descent come to the same. -/
theorem follow_eq (a : Store) (i : Nat) (c : CString) (cs : List CString) :
    a.follow i c cs = if ∃ x ∈ cs, nameMax < x.length then .null else
      match a.descend i (c :: cs).dropLast with
      | none => .null
      | some dir => ⟨a.child dir ((c :: cs).getLastD []), some ((c :: cs).getLastD []), some ⟨dir, 0⟩⟩ := by
  induction cs generalizing i c with
  | nil => rfl
  | cons c' cs ih =>
    unfold follow
    by_cases hlong : nameMax < c'.length
    · rw [if_pos hlong, if_pos ⟨c', List.mem_cons_self, hlong⟩]
    · have hrest : (∃ x ∈ c' :: cs, nameMax < x.length) ↔ ∃ x ∈ cs, nameMax < x.length := by simp [hlong]
      rw [if_neg hlong]
      simp only [hrest, List.dropLast_cons_cons, descend, List.getLastD_cons, ih]
      cases a.child i c with
      | none => simp
      | some k =>
        by_cases hk : a.isDirectory k = true <;> simp [hk]

theorem resolve_root {path : CString} (h : isRootPath path = true) (start : Nat) :
    a.resolve start path = ⟨some rootDirSector, some [], some ⟨rootDirSector, 0⟩⟩ := by
  obtain ⟨hne, hnil⟩ := isRootPath_iff.mp h
  simp [resolve, hnil, hne]

theorem resolve_of_components {path : CString} (hp : components path = c :: cs) (start : Nat) :
    a.resolve start path = if nameMax < c.length then .null else a.follow start c cs := by
  unfold resolve
  rw [hp, follow_eq]
  by_cases hlong : nameMax < c.length
  · rw [if_pos hlong, if_pos ⟨c, List.mem_cons_self, hlong⟩]
  · have hrest : (∃ x ∈ c :: cs, nameMax < x.length) ↔ ∃ x ∈ cs, nameMax < x.length := by simp [hlong]
    simp only [hrest, if_neg hlong, List.getLast?_cons, List.getLastD_eq_getLast?, Option.getD_some]

theorem Hierarchy.child (h : a.Hierarchy ok) (hi : a.isDirectory i = true) (hk : a.child i c = some k) : a.AtRest ok k := by
  refine h.named k (.inr ?_)
  unfold Store.child at hk
  obtain ⟨f, hf, hn⟩ := Option.bind_eq_some_iff.mp hk
  obtain ⟨j, hj, rfl⟩ := Option.map_eq_some_iff.mp hn
  have hdir : f.isDir = true := by simpa [isDirectory, hf] using hi
  exact ⟨i, f, j, _, hf, hdir, slotOf_some hj, rfl⟩

/-! ### Open inodes -/

/-- A handle after `n` more openers. -/
def moreOpen (x : Option Handle) (n : Nat) : Option Handle :=
  match x with
  | some h => some {h with openCnt := h.openCnt + n}
  | none => if n = 0 then none else some ⟨n, false, 0, false⟩

theorem moreOpen_zero (x : Option Handle) : moreOpen x 0 = x := by
  cases x <;> rfl

theorem moreOpen_succ (x : Option Handle) (n : Nat) :
    moreOpen x (n + 1) = some (match moreOpen x n with
      | some h => {h with openCnt := h.openCnt + 1}
      | none => ⟨1, false, 0, false⟩) := by
  cases x with
  | some h => rfl
  | none => cases n <;> rfl

/-- The store with the inodes of a list opened, each as often as it is in the list. -/
def openAll (a : Store) (l : List Nat) : Store := {a with handles := fun i => moreOpen (a.handles i) (l.count i)}

variable {l l' : List Nat} {h : Handle}

@[simp] theorem openAll_nil (a : Store) : a.openAll [] = a := by
  have hsame : (fun i => moreOpen (a.handles i) (([] : List Nat).count i)) = a.handles := by
    funext i
    rw [List.count_nil, moreOpen_zero]
  unfold openAll
  rw [hsame]

theorem openAll_perm (hp : l.Perm l') : a.openAll l = a.openAll l' := by
  unfold openAll
  simp only [hp.count_eq]

theorem openAll_cons (a : Store) (i : Nat) (l : List Nat) :
    a.openAll (i :: l) = (a.openAll l).setHandle i (moreOpen (a.handles i) (l.count i + 1)) := by
  have hsame : (fun k => moreOpen (a.handles k) ((i :: l).count k)) =
      Function.update (fun k => moreOpen (a.handles k) (l.count k)) i (moreOpen (a.handles i) (l.count i + 1)) := by
    grind
  unfold openAll setHandle
  rw [hsame]

theorem opened_openAll (a : Store) (i : Nat) (l : List Nat) : (a.openAll l).opened i = a.openAll (i :: l) := by
  rw [openAll_cons, moreOpen_succ]
  rfl

/-- An inode that was opened can be closed again. -/
theorem handle_openAll (hq : a.AtRest ok i) (hi : i ∈ l) :
    ∃ h, (a.openAll l).handles i = some h ∧ h.locked = false ∧ h.removed = false := by
  have hpos : l.count i ≠ 0 := Nat.pos_iff_ne_zero.mp (List.count_pos_iff.mpr hi)
  show ∃ h, moreOpen (a.handles i) (l.count i) = some h ∧ _
  cases hh : a.handles i with
  | some h => exact ⟨_, rfl, hq.handle h hh⟩
  | none => exact ⟨_, if_neg hpos, rfl, rfl⟩

theorem closed_openAll (hwf : a.WF) {f : Obj} (hh : (a.openAll (i :: l)).handles i = some h) (hr : h.removed = false) :
    (a.openAll (i :: l)).closed i f h = a.openAll l := by
  have hlast : (if h.openCnt = 1 then none else some {h with openCnt := h.openCnt - 1}) =
      moreOpen (a.handles i) (l.count i) := by
    rw [openAll_cons, handles_setHandle] at hh
    cases ha : a.handles i with
    | some g =>
      have hpos := (hwf.handle i g ha).2
      rw [ha] at hh
      cases hh
      rw [if_neg (by simp only; omega)]
      rfl
    | none =>
      rw [ha] at hh
      cases hh
      by_cases h0 : l.count i = 0 <;> simp [moreOpen, h0]
  have hclosed : (a.openAll (i :: l)).closed i f h =
      (a.openAll (i :: l)).setHandle i (if h.openCnt = 1 then none else some {h with openCnt := h.openCnt - 1}) := by
    unfold closed
    rw [hr]
    split <;> rfl
  rw [hclosed, hlast, openAll_cons, setHandle_setHandle]
  exact setHandle_self rfl

end Store

/-! ### The walk -/

/-- What the caller gets: without places for the name and the directory only the inode. -/
def Resolved.given (wanted : Bool) (r : Resolved) : Resolved := if wanted then r else ⟨r.inode, none, none⟩

/-- The inodes the caller has to close. -/
def Resolved.held (r : Resolved) : List Nat := r.inode.toList ++ (r.fileDir.map Dir.inode).toList

section
variable {σ : Type} {R : σ → σ → Prop} [Std.Refl R] [IsTrans σ R] {L : InodeLayer R}
  {rep : Bool → σ → Store → Prop} {ok : Nat → Prop} {fresh : σ → Nat → Prop} (hL : Lawful L rep ok fresh)
  {t : Bool} {s : σ} {a : Store} {i pos : Nat} {l : List Nat} (ht : a.Hierarchy ok) (hwf : a.WF)
include hL

omit [Std.Refl R] [IsTrans σ R] in
theorem open_ends (hr : rep t s (a.openAll l)) (hq : a.AtRest ok i) :
    Ends (L.inodeOpen i) s (fun r s' => r = some i ∧ rep t s' (a.openAll (i :: l))) fun _ _ => False := by
  obtain ⟨f, hf⟩ := hq.file
  have hopen := hL.inodeOpen (f := f) hr hq.ok hf
  rwa [Store.opened_openAll] at hopen

theorem dirReopen_ends (hr : rep t s (a.openAll l)) (hi : ok i) {h : Handle} (hh : (a.openAll l).handles i = some h) :
    Ends (dirReopen L ⟨i, pos⟩) s (fun r s' => r = some ⟨i, 0⟩ ∧ rep t s' (a.openAll (i :: l))) fun _ _ => False := by
  unfold dirReopen
  rw [ends_bind]
  refine Ends.imp (hL.inodeReopen hr hi hh) ?_
  intro r s1 h1
  obtain ⟨rfl, hr1⟩ := h1
  rw [Store.opened_openAll] at hr1
  exact dirOpen_ends hL hr1 i

omit [Std.Refl R] [IsTrans σ R] in
include hwf in
theorem close_ends (hr : rep t s (a.openAll (i :: l))) (hq : a.AtRest ok i) :
    Ends (L.inodeClose (some i)) s (fun _ s' => rep t s' (a.openAll l)) fun _ _ => False := by
  obtain ⟨f, hf⟩ := hq.file
  obtain ⟨h, hh, hlock, hrem⟩ := Store.handle_openAll (l := i :: l) hq List.mem_cons_self
  refine Ends.imp (hL.inodeClose (f := f) hr hq.ok hh hf hlock) ?_
  intro _ s' hr'
  rwa [hrem, Bool.and_false, Bool.not_false, Bool.and_true, Store.closed_openAll hwf hh hrem] at hr'

include ht in
theorem dirLookup_ends (hr : rep t s (a.openAll l)) (hq : a.AtRest ok i) (hd : a.isDirectory i = true) (hi : i ∈ l)
    (name : CString) :
    Ends (dirLookup L ⟨i, pos⟩ name) s
      (fun r s' => r = a.child i name ∧ rep t s' (a.openAll ((a.child i name).toList ++ l))) fun _ _ => False := by
  obtain ⟨f, hf⟩ := hq.file
  obtain ⟨h, hh, -⟩ := Store.handle_openAll hq hi
  have hchild : a.child i name = names f.bytes name := by rw [Store.child, hf]; rfl
  unfold dirLookup
  rw [ends_bind]
  refine Ends.imp (lookup_ends (hL.reads (f := f) hr hq.ok hh hf) hr name) ?_
  intro r s1 h1
  obtain ⟨hr1, rfl⟩ := h1
  unfold names at hchild
  cases hslot : slotOf f.bytes name with
  | none =>
    rw [hslot] at hchild
    rw [hchild]
    exact ⟨rfl, hr1⟩
  | some j =>
    rw [hslot] at hchild
    rw [hchild]
    exact open_ends hL hr1 (ht.child hd hchild)

theorem copyName_ends (hr : rep t s a) (name : CString) :
    Ends (copyName L name) s (fun r s' => r = some name ∧ rep t s' a) fun _ _ => False := by
  unfold copyName
  rw [ends_bind]
  refine Ends.imp (hL.malloc hr) ?_
  intro b s1 h1
  obtain ⟨rfl, hr1⟩ := h1
  exact ⟨rfl, hr1⟩

theorem getPathNextToken_ends (hr : rep t s a) (path : CString) :
    Ends (getPathNextToken L path) s (fun r s' => r = nextToken path ∧ rep t s' a) fun _ _ => False := by
  unfold getPathNextToken
  rw [ends_bind]
  refine Ends.imp (hL.malloc hr) ?_
  intro b s1 h1
  obtain ⟨rfl, hr1⟩ := h1
  exact ⟨rfl, hr1⟩

include hwf in
/-- The end of a walk that fails, with the directory and perhaps an inode open. -/
theorem walkFail_ends {mid : Option Nat} (hr : rep t s (a.openAll (mid.toList ++ i :: l))) (hq : a.AtRest ok i)
    (hm : ∀ k, mid = some k → a.AtRest ok k) :
    Ends (walkFail L mid (some ⟨i, pos⟩)) s (fun r s' => r = .null ∧ rep t s' (a.openAll l)) fun _ _ => False := by
  have hmid : Ends (L.inodeClose mid) s (fun _ s' => rep t s' (a.openAll (i :: l))) fun _ _ => False := by
    cases mid with
    | none => exact hL.inodeClose_none hr
    | some k => exact close_ends hL hwf hr (hm k rfl)
  unfold walkFail
  rw [ends_bind]
  refine Ends.imp hmid ?_
  intro _ s1 hr1
  rw [ends_bind]
  refine Ends.imp (close_ends hL hwf hr1 hq) ?_
  intro _ s2 hr2
  exact ⟨rfl, hr2⟩

include hwf in
/-- The end of a walk at the last component. -/
theorem walkLast_ends (wanted : Bool) {mid : Option Nat} {token : CString}
    (hr : rep t s (a.openAll (mid.toList ++ i :: l))) (hq : a.AtRest ok i) :
    Ends (do
        let fileName ← (if wanted then copyName L token else pure none)
        let fileDir ← (if wanted then dirReopen L ⟨i, pos⟩ else pure none)
        dirClose L (some ⟨i, pos⟩)
        return (⟨mid, fileName, fileDir⟩ : Resolved)) s
      (fun r s' => r = Resolved.given wanted ⟨mid, some token, some ⟨i, 0⟩⟩ ∧ rep t s' (a.openAll (r.held ++ l)))
      fun _ _ => False := by
  cases wanted with
  | false =>
    rw [Store.openAll_perm List.perm_middle] at hr
    simp only [Bool.false_eq_true, if_false, ends_bind, ends_pure]
    refine Ends.imp (close_ends hL hwf hr hq) ?_
    intro _ s1 hr1
    refine ⟨rfl, ?_⟩
    simpa [Resolved.held] using hr1
  | true =>
    simp only [if_true, ends_bind]
    refine Ends.imp (copyName_ends hL hr token) ?_
    intro b s1 h1
    obtain ⟨rfl, hr1⟩ := h1
    obtain ⟨h, hh, -⟩ := Store.handle_openAll (l := mid.toList ++ i :: l) hq (by simp)
    refine Ends.imp (dirReopen_ends hL hr1 hq.ok hh) ?_
    intro r s2 h2
    obtain ⟨rfl, hr2⟩ := h2
    refine Ends.imp (close_ends hL hwf hr2 hq) ?_
    intro _ s3 hr3
    refine ⟨rfl, ?_⟩
    simpa [Resolved.held] using hr3

include ht hwf in
/-- The walk, with directory `i` open and the component `token` to look up in it. -/
theorem walk_ends (wanted : Bool) (rounds : Nat) {path token : CString} (hrounds : (components path).length < rounds)
    (hr : rep t s (a.openAll (i :: l))) (hq : a.AtRest ok i) (hd : a.isDirectory i = true) :
    Ends (walk L wanted rounds ⟨i, pos⟩ token path) s
      (fun r s' => r = (a.follow i token (components path)).given wanted ∧ rep t s' (a.openAll (r.held ++ l)))
      fun _ _ => False := by
  induction rounds generalizing path token s i pos with
  | zero => omega
  | succ rounds ih =>
    unfold walk
    rw [ends_bind]
    refine Ends.imp (dirLookup_ends hL ht hr hq hd List.mem_cons_self token) ?_
    intro mid s1 h1
    obtain ⟨rfl, hr1⟩ := h1
    have hmid : ∀ k, a.child i token = some k → a.AtRest ok k := fun k hk => ht.child hd hk
    have hfail : ∀ {s2 : σ}, rep t s2 (a.openAll ((a.child i token).toList ++ i :: l)) →
        Ends (walkFail L (a.child i token) (some ⟨i, pos⟩)) s2
          (fun r s' => r = Resolved.null.given wanted ∧ rep t s' (a.openAll (r.held ++ l))) fun _ _ => False := by
      intro s2 hr2
      refine Ends.imp (walkFail_ends hL hwf hr2 hq hmid) ?_
      intro r s3 h3
      obtain ⟨rfl, hr3⟩ := h3
      refine ⟨by cases wanted <;> rfl, hr3⟩
    rw [ends_bind]
    refine Ends.imp (getPathNextToken_ends hL hr1 path) ?_
    intro next s2 h2
    obtain ⟨rfl, hr2⟩ := h2
    have htakes := nextToken_takes path
    cases hnext : nextToken path with
    | tooLong =>
      rw [hnext] at htakes
      obtain ⟨c, cs, hcs, hlong⟩ := htakes
      rw [hcs, Store.follow, if_pos hlong]
      exact hfail hr2
    | atEnd =>
      rw [hnext] at htakes
      have hcs : components path = [] := htakes
      rw [hcs, Store.follow]
      exact walkLast_ends hL hwf wanted hr2 hq
    | token c rest =>
      rw [hnext] at htakes
      obtain ⟨hcs, hshort⟩ := htakes
      rw [hcs] at hrounds
      rw [hcs, Store.follow, if_neg (Nat.not_lt.mpr hshort)]
      cases hk : a.child i token with
      | none =>
        rw [hk] at hr2 hfail
        exact hfail hr2
      | some k =>
        rw [hk] at hr2 hfail
        have hqk := hmid k hk
        obtain ⟨f, hf⟩ := hqk.file
        obtain ⟨h, hh, -⟩ := Store.handle_openAll (l := k :: i :: l) hqk List.mem_cons_self
        have hkind : a.isDirectory k = f.isDir := by simp [Store.isDirectory, hf]
        simp only
        rw [ends_bind]
        refine Ends.imp (hL.inodeAt (f := f) hr2 hqk.ok hh hf) ?_
        intro n s3 h3
        obtain ⟨hr3, -, -, hdir, -⟩ := h3
        rw [hdir, ← hkind]
        cases hkd : a.isDirectory k with
        | false => exact hfail hr3
        | true =>
          have hr3' : rep t s3 (a.openAll (i :: k :: l)) := by
            rw [← Store.openAll_perm (List.Perm.swap i k l)]
            exact hr3
          simp only [Bool.not_true, Bool.false_eq_true, if_false, if_true]
          rw [ends_bind]
          refine Ends.imp (close_ends hL hwf hr3' hq) ?_
          intro _ s4 hr4
          rw [ends_bind]
          refine Ends.imp (dirOpen_ends hL hr4 k) ?_
          intro d s5 h5
          obtain ⟨rfl, hr5⟩ := h5
          exact ih (by simpa using hrounds) hr5 hqk hkd

end

/-! ### The whole path -/

/-- The directory a path starts from. -/
def Thread.start (th : Thread) (path : CString) : Nat :=
  if path.head? = some slash then rootDirSector else (th.workingDirectory.map Dir.inode).getD rootDirSector

/-- A relative path gives a thread without a working directory the root for one. -/
def Thread.settles (th : Thread) (path : CString) : Bool :=
  !(path.head? = some slash) && th.workingDirectory.isNone

/-- The thread, and what it has opened, after a path has been resolved. -/
def Thread.settled (th : Thread) (path : CString) : Thread :=
  if th.settles path then {th with workingDirectory := some ⟨rootDirSector, 0⟩} else th

def Thread.settledOn (th : Thread) (path : CString) : List Nat := if th.settles path then [rootDirSector] else []

/-- The working directory is an open directory of the tree. -/
def Thread.Working (ok : Nat → Prop) (a : Store) (th : Thread) : Prop :=
  ∀ d, th.workingDirectory = some d → a.AtRest ok d.inode ∧ a.isDirectory d.inode = true ∧ (a.handles d.inode).isSome = true

section
variable {σ α : Type} {R : σ → σ → Prop}

theorem ends_liftFs {m : Prog R Panic α} {c : Call σ} {Q : α → Call σ → Prop} {E : Panic → Call σ → Prop} :
    Ends (liftFs m) c Q E ↔ Ends m c.fs (fun r s => Q r {c with fs := s}) fun e s => E e {c with fs := s} := by
  cases hm : m.run c.fs with
  | ok r s =>
    have hrun : (liftFs m).run c = .ok r {c with fs := s} := by simp only [liftFs, hm]
    rw [ends_ok hrun, ends_ok hm]
  | error e s =>
    have hrun : (liftFs m).run c = .error e {c with fs := s} := by simp only [liftFs, hm]
    rw [ends_error hrun, ends_error hm]

variable [Std.Refl R]

theorem ends_modifyThread (f : Thread → Thread) {c : Call σ} {Q : Unit → Call σ → Prop} {E : Panic → Call σ → Prop} :
    Ends (modifyThread f : CallM R Unit) c Q E ↔ Q () {c with thread := f c.thread} := Iff.rfl

variable [IsTrans σ R] {L : InodeLayer R} {rep : Bool → σ → Store → Prop} {ok : Nat → Prop}
  {fresh : σ → Nat → Prop} (hL : Lawful L rep ok fresh) {t : Bool} {s : σ} {a : Store} {l : List Nat} {th : Thread}
  (ht : a.Hierarchy ok) (hw : th.Working ok a)
include hL ht

theorem dirOpenRoot_ends (hr : rep t s (a.openAll l)) :
    Ends (dirOpenRoot L) s (fun r s' => r = some ⟨rootDirSector, 0⟩ ∧ rep t s' (a.openAll (rootDirSector :: l)))
      fun _ _ => False := by
  unfold dirOpenRoot
  rw [ends_bind]
  refine Ends.imp (open_ends hL hr (ht.named _ (.inl rfl))) ?_
  intro r s1 h1
  obtain ⟨rfl, hr1⟩ := h1
  exact dirOpen_ends hL hr1 rootDirSector

include hw in
theorem getPathInitialDirectory_ends (hr : rep t s a) (path : CString) :
    Ends (getPathInitialDirectory L path) ⟨s, th⟩
      (fun r c => r = some ⟨th.start path, 0⟩ ∧ c.thread = th.settled path ∧
        rep t c.fs (a.openAll (th.start path :: th.settledOn path))) fun _ _ => False := by
  have hr0 : rep t s (a.openAll []) := by rwa [Store.openAll_nil]
  unfold getPathInitialDirectory
  by_cases habs : path.head? = some slash
  · have hsettle : th.settles path = false := by simp [Thread.settles, habs]
    rw [if_pos habs, ends_liftFs]
    simp only [Thread.start, Thread.settled, Thread.settledOn, habs, hsettle, Bool.false_eq_true, if_true, if_false]
    refine Ends.imp (dirOpenRoot_ends hL ht hr0) ?_
    grind
  · rw [if_neg habs, ends_bind]
    unfold getWorkingDirectory getThread
    rw [ends_bind, ends_look]
    simp only [Thread.start, Thread.settled, Thread.settledOn, Thread.settles, if_neg habs, decide_eq_false habs,
      Bool.not_false, Bool.true_and]
    cases hcwd : th.workingDirectory with
    | some d =>
      obtain ⟨hq, -, hopen⟩ := hw d hcwd
      obtain ⟨h, hh⟩ := Option.isSome_iff_exists.mp hopen
      rw [← Store.openAll_nil a] at hh
      simp only [ends_pure, ends_liftFs]
      refine Ends.imp (dirReopen_ends hL hr0 hq.ok hh) ?_
      grind
    | none =>
      simp only [ends_bind, ends_liftFs]
      refine Ends.imp (dirOpenRoot_ends hL ht hr0) ?_
      intro r s1 h1
      obtain ⟨rfl, hr1⟩ := h1
      obtain ⟨h, hh, -⟩ := Store.handle_openAll (l := [rootDirSector]) (ht.named rootDirSector (.inl rfl)) (by simp)
      simp only [ends_modifyThread, ends_pure, ends_liftFs]
      refine Ends.imp (dirReopen_ends hL hr1 (ht.named _ (.inl rfl)).ok hh) ?_
      grind

include hw in
omit hL [Std.Refl R] [IsTrans σ R] in
theorem start_atRest (path : CString) : a.AtRest ok (th.start path) ∧ a.isDirectory (th.start path) = true := by
  have hroot : a.AtRest ok rootDirSector ∧ a.isDirectory rootDirSector = true := ⟨ht.named _ (.inl rfl), ht.root⟩
  unfold Thread.start
  split
  · exact hroot
  · cases hcwd : th.workingDirectory with
    | none => exact hroot
    | some d => exact ⟨(hw d hcwd).1, (hw d hcwd).2.1⟩

theorem rootPath_ends (hr : rep t s a) (wanted : Bool) {path : CString} (hp : isRootPath path = true) (start : Nat) :
    Ends (getNameAndDirFromPath L wanted path) ⟨s, th⟩
      (fun r c => r = (a.resolve start path).given wanted ∧ c.thread = th ∧ rep t c.fs (a.openAll r.held))
      fun _ _ => False := by
  have hq := ht.named rootDirSector (.inl rfl)
  have hr0 : rep t s (a.openAll []) := by rwa [Store.openAll_nil]
  rw [Store.resolve_root hp]
  unfold getNameAndDirFromPath
  rw [if_pos hp]
  cases wanted with
  | false =>
    simp only [Bool.false_eq_true, if_false, ends_bind, ends_pure, ends_liftFs]
    refine Ends.imp (open_ends hL hr0 hq) ?_
    intro r s1 h1
    obtain ⟨rfl, hr1⟩ := h1
    exact ⟨rfl, trivial, hr1⟩
  | true =>
    simp only [if_true, ends_bind, ends_liftFs]
    refine Ends.imp (dirOpenRoot_ends hL ht hr0) ?_
    intro r s1 h1
    obtain ⟨rfl, hr1⟩ := h1
    refine Ends.imp (copyName_ends hL hr1 []) ?_
    intro r s2 h2
    obtain ⟨rfl, hr2⟩ := h2
    refine Ends.imp (open_ends hL hr2 hq) ?_
    intro r s3 h3
    obtain ⟨rfl, hr3⟩ := h3
    exact ⟨rfl, rfl, hr3⟩

include hw in
theorem getNameAndDirFromPath_ends (hr : rep t s a) (wanted : Bool) (path : CString) :
    Ends (getNameAndDirFromPath L wanted path) ⟨s, th⟩
      (fun r c => r = (a.resolve (th.start path) path).given wanted ∧ c.thread = th.settled path ∧
        rep t c.fs (a.openAll (r.held ++ th.settledOn path))) fun _ _ => False := by
  have hwf := hL.wf hr
  obtain ⟨hq, hd⟩ := start_atRest ht hw path
  by_cases hp : isRootPath path = true
  · have hsettle : th.settles path = false := by
      cases path with
      | nil => cases hp
      | cons c path =>
        have hc : c = slash := by
          have := (Bool.and_eq_true_iff.mp hp).2
          simp at this
          exact this.1
        simp [Thread.settles, hc]
    simp only [Thread.settled, Thread.settledOn, hsettle, Bool.false_eq_true, if_false, List.append_nil]
    exact rootPath_ends hL ht hr wanted hp _
  · unfold getNameAndDirFromPath
    rw [if_neg hp, ends_bind]
    refine Ends.imp (getPathInitialDirectory_ends hL ht hw hr path) ?_
    intro r c h1
    obtain ⟨fs, thread⟩ := c
    obtain ⟨rfl, rfl, hr1⟩ := h1
    simp only [ends_bind, ends_liftFs]
    refine Ends.imp (getPathNextToken_ends hL hr1 path) ?_
    intro next s2 h2
    obtain ⟨rfl, hr2⟩ := h2
    have htakes := nextToken_takes path
    have hfail : Ends (walkFail L none (some ⟨th.start path, 0⟩)) s2
        (fun r s' => r = Resolved.null.given wanted ∧ rep t s' (a.openAll (r.held ++ th.settledOn path)))
        fun _ _ => False := by
      have hnone : ∀ k, (none : Option Nat) = some k → a.AtRest ok k := fun k hk => by cases hk
      refine Ends.imp (walkFail_ends hL hwf hr2 hq hnone) ?_
      intro r s3 h3
      obtain ⟨rfl, hr3⟩ := h3
      exact ⟨by cases wanted <;> rfl, hr3⟩
    cases hnext : nextToken path with
    | token c rest =>
      rw [hnext] at htakes
      obtain ⟨hcs, hshort⟩ := htakes
      have hlen : (components rest).length < path.length + 1 := by
        have hall := length_components path
        grind
      simp only [ends_liftFs]
      rw [Store.resolve_of_components hcs, if_neg (Nat.not_lt.mpr hshort)]
      refine Ends.imp (walk_ends hL ht hwf wanted _ hlen hr2 hq hd) ?_
      grind
    | tooLong =>
      rw [hnext] at htakes
      obtain ⟨c, cs, hcs, hlong⟩ := htakes
      simp only [ends_liftFs]
      rw [Store.resolve_of_components hcs, if_pos hlong]
      grind
    | atEnd =>
      rw [hnext] at htakes
      have hcs : components path = [] := htakes
      have hnil : path = [] := by
        by_contra hne
        exact hp (isRootPath_iff.mpr ⟨hne, hcs⟩)
      have hnull : a.resolve (th.start path) path = .null := by simp [Store.resolve, hnil]
      simp only [ends_liftFs]
      grind

end

/-- In a directory tree, and from any working directory in it, `get_name_and_dir_from_path` returns what
the path names: the directory that the components but the last lead to, the last component, and the
inode it has there, if any; nothing if a component is too long, if there is none, or if the way
is not one of directories. What it returns is open, and nothing else has been left open, but the root if
it has become the working directory. -/
theorem path_resolves {t : Bool} {s : Fs} {a : Store} {th : Thread} (hr : FsRep t s a)
    (ht : a.Hierarchy (· ≠ freeMapSector)) (hw : th.Working (· ≠ freeMapSector) a) (wanted : Bool) (path : CString) :
    Ends (getNameAndDirFromPath fsLayer wanted path) ⟨s, th⟩
      (fun r c => r = (a.resolve (th.start path) path).given wanted ∧ c.thread = th.settled path ∧
        FsRep t c.fs (a.openAll (r.held ++ th.settledOn path))) fun _ _ => False :=
  getNameAndDirFromPath_ends fsLayer_lawful ht hw hr wanted path

/-! ### A new file system -/

section
variable {b : List UInt8} {a : Store}

theorem RootEntries.sector {j : Nat} {x : Entry} (h : RootEntries b) (hx : entries b j = some x) :
    x.sector = rootDirSector ∧ (x.name = dot ∨ x.name = dotDot) := by
  obtain ⟨i, k, -, he⟩ := h
  rw [he] at hx
  by_cases hk : j = k
  · grind
  · grind

theorem RootEntries.names_dot (h : RootEntries b) : names b dot = some rootDirSector := by
  obtain ⟨j, hj⟩ : ∃ j, slotOf b dot = some j := by
    apply Option.ne_none_iff_exists'.mp
    intro hnone
    obtain ⟨i, k, hne, he⟩ := h
    refine slotOf_none.mp hnone i ⟨rootDirSector, dot⟩ ?_ rfl
    rw [he, Function.update_of_ne hne, Function.update_self]
  rw [names, hj, Option.map_some]
  exact congrArg some (h.sector (slotOf_some hj)).1

theorem RootEntries.names_none {n : CString} (h : RootEntries b) (h1 : n ≠ dot) (h2 : n ≠ dotDot) : names b n = none := by
  rw [names_eq_none, slotOf_none]
  intro j x hx hn
  rcases (h.sector hx).2 with hd | hd
  · exact h1 (hn ▸ hd)
  · exact h2 (hn ▸ hd)

theorem NewStore.hierarchy (h : NewStore True a) : a.Hierarchy (· ≠ freeMapSector) := by
  obtain ⟨f, hf, -, hroot⟩ := h.files
  refine ⟨by simp [Store.isDirectory, hf.root, hf.isDir], ?_⟩
  intro k hk
  obtain rfl : k = rootDirSector := by
    rcases hk with rfl | ⟨i, g, j, x, hg, hd, hx, rfl⟩
    · rfl
    · rcases hf.only i (by rw [hg]; simp) with rfl | rfl
      · obtain ⟨m, hm, hmd⟩ := hf.map
        grind
      · rw [hf.root] at hg
        cases hg
        exact ((hroot trivial).sector hx).1
  refine ⟨by decide, ⟨f, hf.root⟩, ?_⟩
  intro g hg
  rw [h.handles] at hg
  cases hg

end

def noFiles : Thread := ⟨none, [], 2, none⟩

/-- On a new file system "./x" names nothing in the root, which becomes the working directory. -/
theorem path_resolves_in_new_root : ∃ s a, FsRep true s a ∧ a.Hierarchy (· ≠ freeMapSector) ∧
    Ends (getNameAndDirFromPath fsLayer true [46, 47, 120]) ⟨s, noFiles⟩
      (fun r c => r = ⟨none, some [120], some ⟨rootDirSector, 0⟩⟩ ∧
        c.thread.workingDirectory = some ⟨rootDirSector, 0⟩) fun _ _ => False := by
  obtain ⟨s, hs⟩ : ∃ s, formatBlank 24 = some s := Option.isSome_iff_exists.mp (by decide +kernel)
  obtain ⟨a, hr, hnew⟩ := formatBlank_store hs
  obtain ⟨f, hf, -, hroot⟩ := hnew.files
  have hroot := hroot trivial
  have hcs : components [46, 47, 120] = [dot, [120]] := by decide
  have hresolve : a.resolve rootDirSector [46, 47, 120] = ⟨none, some [120], some ⟨rootDirSector, 0⟩⟩ := by
    rw [Store.resolve_of_components hcs, if_neg (by decide)]
    have h1 : a.child rootDirSector dot = some rootDirSector := by rw [Store.child, hf.root]; exact hroot.names_dot
    have h2 : a.child rootDirSector [120] = none := by
      rw [Store.child, hf.root]
      exact hroot.names_none (by decide) (by decide)
    simp [Store.follow, h1, h2, hnew.hierarchy.root]
    decide
  have hworking : noFiles.Working (· ≠ freeMapSector) a := fun d hd => by cases hd
  refine ⟨s, a, hr, hnew.hierarchy, ?_⟩
  refine (path_resolves hr hnew.hierarchy hworking true [46, 47, 120]).imp ?_
  intro r c h1
  obtain ⟨rfl, hth, -⟩ := h1
  refine ⟨hresolve, ?_⟩
  rw [hth]
  rfl

end Pintos.Filesys
