import Pintos.Filesys.Descriptors
import Pintos.Library.Runs

/-! What a descriptor stands for.

The history of a process's calls says which descriptors are open and what for: an open that
succeeds maps its number to the file it returned, a close takes the number out. As long as no number
above `MAX_FD` is handed out, every call acts as this map says, and exit closes what is in it,
each file once. The counter never goes back, so a process that opens often enough is handed a
number that the range test refuses. -/
namespace Pintos.Filesys
open Outcome

/-! ### Calls -/

/-- The calls that name a descriptor. -/
inductive FdOp where
  | close
  | write (buffer : Bytes) (size : UInt32)
  | read (size : UInt32) (withAhead : Bool)
  | filesize
  | seek (position : UInt32)
  | tell
  | readdir
  | isdir

inductive FdCall where
  | open (path : CString)
  | use (fd : Int) (op : FdOp)

inductive FdReply where
  | opened (d : Option Descriptor)
  | closed (success : Bool)
  | count (n : Int)
  | bytes (r : Int × List UInt8)
  | done
  | position (n : UInt32)
  | name (n : Option CString)
  | flag (b : Bool)
deriving DecidableEq

/-- The map from descriptors to what they were opened for, after some calls, the newest first. -/
def table : List (FdCall × FdReply) → Int → Option Descriptor
  | [] => fun _ => none
  | (.open _, .opened (some d)) :: h => Function.update (table h) d.fd (some d)
  | (.use fd .close, .closed true) :: h => Function.update (table h) fd none
  | _ :: h => table h

/-- Every descriptor that an open returned was not in use then. -/
def OpensFresh : List (FdCall × FdReply) → Prop
  | [] => True
  | (.open _, .opened (some d)) :: h => d.fd ≠ -1 ∧ table h d.fd = none ∧ OpensFresh h
  | _ :: h => OpensFresh h

/-- The answer when the descriptor is not open. -/
def FdOp.refused : FdOp → FdReply
  | .close => .closed false
  | .write _ _ => .count (-1)
  | .read _ _ => .bytes (-1, [])
  | .filesize => .count (-1)
  | .seek _ => .done
  | .tell => .position (UInt32.ofInt (-1))
  | .readdir => .name none
  | .isdir => .flag false

section
variable {σ : Type} {R : σ → σ → Prop} [Std.Refl R] [IsTrans σ R] (L : FileLayer R)

def FdOp.exec (fd : Int) : FdOp → ProcessM R FdReply
  | .close => do return .closed (← closeFd L fd true)
  | .write buffer size => do return .count (← fdWrite L fd buffer size)
  | .read size withAhead => do return .bytes (← fdRead L fd size withAhead)
  | .filesize => do return .count (← sizeFile L fd)
  | .seek position => do
    seekFile L fd position
    return .done
  | .tell => do return .position (← tellFile L fd)
  | .readdir => do return .name (← fdReaddir L fd)
  | .isdir => do return .flag (← fdIsdir fd)

def FdCall.exec : FdCall → ProcessM R FdReply
  | .open path => do return .opened (← createFileDescriptor L path)
  | .use fd op => op.exec L fd

/-- What a call does with the file, or the directory, that the descriptor was opened for. -/
def FdOp.on (d : Descriptor) : FdOp → ProcessM R FdReply
  | .close => do
    closeFiles L d
    modifyFds (·.eraseP (·.fd == d.fd))
    return .closed true
  | .write buffer size =>
    if d.dir.isSome then return .count (-1)
    else do return .count (← liftWorld (L.fileWrite d.file buffer size.toBitVec.toInt))
  | .read size withAhead =>
    if d.dir.isSome then return .bytes (-1, [])
    else do return .bytes (← liftWorld (L.fileRead d.file size.toBitVec.toInt withAhead))
  | .filesize => do return .count (← liftWorld (L.fileLength d.file))
  | .seek position => do
    liftWorld (L.fileSeek d.file position.toBitVec.toInt)
    return .done
  | .tell => do return .position (UInt32.ofInt (← liftWorld (L.fileTell d.file)))
  | .readdir =>
    match d.dir with
    | none => return .name none
    | some dir => do return .name (← liftWorld (L.dirReaddir dir))
  | .isdir => return .flag d.dir.isSome

/-- Files and directories closed one after the other. -/
def closeAll : List Descriptor → ProcessM R Unit
  | [] => return
  | d :: rest => do
    closeFiles L d
    closeAll rest

end

/-! ### The list as the map -/

section
variable {α β : Type} [DecidableEq β] {f : α → β} {l : List α} {x : α} {k : β}

/-- In a list without two elements of one key, the key finds its element. -/
theorem find?_key (h : (l.map f).Nodup) : l.find? (f · == k) = some x ↔ x ∈ l ∧ f x = k := by
  constructor
  · grind
  · intro hx
    obtain ⟨hx, hk⟩ := hx
    cases hf : l.find? (f · == k) with
    | none => exact absurd (by simpa using hk) (List.find?_eq_none.mp hf x hx)
    | some y =>
      have hy : f y = f x := by rw [hk]; simpa using List.find?_some hf
      exact congrArg some (List.inj_on_of_nodup_map h (List.mem_of_find?_eq_some hf) hx hy)

theorem mem_eraseP_key (h : (l.map f).Nodup) : x ∈ l.eraseP (f · == k) ↔ x ∈ l ∧ f x ≠ k := by
  induction l with
  | nil => simp
  | cons a l ih =>
    rw [List.map_cons, List.nodup_cons] at h
    rw [List.eraseP_cons]
    by_cases ha : f a = k
    · have hother : ∀ y ∈ l, f y ≠ k := fun y hy hk => h.1 (List.mem_map.mpr ⟨y, hy, hk.trans ha.symm⟩)
      simp only [ha, beq_self_eq_true, List.mem_cons]
      constructor
      · exact fun hx => ⟨.inr hx, hother x hx⟩
      · grind
    · have hne : (f a == k) = false := by simpa using ha
      simp only [hne, cond_false, List.mem_cons, ih h.2]
      constructor
      · intro hx
        rcases hx with rfl | hx
        · exact ⟨.inl rfl, ha⟩
        · exact ⟨.inr hx.1, hx.2⟩
      · grind

end

/-- The list of the process is the map, and its numbers are in the range. -/
structure Tracks {σ : Type} (T : Int → Option Descriptor) (p : Process σ) : Prop where
  mem : ∀ fd d, T fd = some d ↔ d ∈ p.fdList ∧ d.fd = fd
  nodup : (p.fdList.map Descriptor.fd).Nodup
  range : ∀ d ∈ p.fdList, initialFdCount ≤ d.fd ∧ d.fd < p.fdCounter
  counter : initialFdCount ≤ p.fdCounter ∧ p.fdCounter ≤ maxFd + 1

section
variable {σ : Type} {T : Int → Option Descriptor} {p : Process σ} {fd : Int} {d : Descriptor}

theorem Tracks.find (h : Tracks T p) (fd : Int) : p.fdList.find? (·.fd == fd) = T fd := by
  apply Option.ext
  intro d
  rw [find?_key h.nodup, h.mem]

theorem Tracks.valid (h : Tracks T p) (hd : T fd = some d) : isValidFd fd = fd ∧ fd ≠ -1 := by
  obtain ⟨hd, hfd⟩ := (h.mem fd d).mp hd
  obtain ⟨hlo, hhi⟩ := h.range d hd
  have hmax := h.counter.2
  unfold isValidFd initialFdCount maxFd at *
  grind

end

/-! ### One call -/

section
variable {σ α : Type} {R : σ → σ → Prop} [Std.Refl R] [IsTrans σ R] {L : FileLayer R} {T : Int → Option Descriptor}
  {p : Process σ} {fd : Int} {d : Descriptor}

/-- The lookup that the calls with a range test share. -/
def onFd (fd : Int) (refused : α) (k : Descriptor → ProcessM R α) : ProcessM R α := do
  if isValidFd fd = -1 then return refused
  match ← getFileFromCurrentThread (isValidFd fd) with
  | none => return refused
  | some f => k f

/-- The same for `fd_write` and `fd_read`, which refuse directories. -/
def onPlainFd (fd : Int) (refused : α) (k : Descriptor → ProcessM R α) : ProcessM R α := do
  if isValidFd fd = -1 then return refused
  if ← fdIsdir (isValidFd fd) then return refused
  match ← getFileFromCurrentThread (isValidFd fd) with
  | none => return refused
  | some f => k f

theorem isValidFd_cases (fd : Int) : isValidFd fd = -1 ∨ isValidFd fd = fd := by
  unfold isValidFd
  grind

omit [IsTrans σ R] in
theorem Tracks.lookup (h : Tracks T p) (fd : Int) :
    (getFileFromCurrentThread fd : ProcessM R (Option Descriptor)).run p = .ok (T fd) p := by
  rw [← h.find fd]
  rfl

theorem Tracks.onFd_some (h : Tracks T p) (hd : T fd = some d) (refused : α) (k : Descriptor → ProcessM R α) :
    (onFd fd refused k).run p = (k d).run p := by
  obtain ⟨hv, hne⟩ := h.valid hd
  unfold onFd
  rw [hv, if_neg hne, Prog.run_bind, h.lookup fd, hd]

theorem Tracks.onFd_none (h : Tracks T p) (hd : T fd = none) (refused : α) (k : Descriptor → ProcessM R α) :
    (onFd fd refused k).run p = .ok refused p := by
  unfold onFd
  split
  · rfl
  · rename_i hne
    rw [(isValidFd_cases fd).resolve_left hne, Prog.run_bind, h.lookup fd, hd]
    rfl

theorem Tracks.fdIsdir (h : Tracks T p) (fd : Int) :
    (fdIsdir fd : ProcessM R Bool).run p = .ok ((T fd).any (·.dir.isSome)) p := by
  have hform : (Filesys.fdIsdir fd : ProcessM R Bool) = onFd fd false fun f => pure f.dir.isSome := rfl
  rw [hform]
  cases hd : T fd with
  | none => rw [h.onFd_none hd]; rfl
  | some d => rw [h.onFd_some hd]; rfl

theorem Tracks.onPlainFd_some (h : Tracks T p) (hd : T fd = some d) (refused : α) (k : Descriptor → ProcessM R α) :
    (onPlainFd fd refused k).run p = if d.dir.isSome then .ok refused p else (k d).run p := by
  obtain ⟨hv, hne⟩ := h.valid hd
  unfold onPlainFd
  rw [hv, if_neg hne, Prog.run_bind, h.fdIsdir fd, hd, Option.any_some]
  cases d.dir with
  | some dir => rfl
  | none =>
    simp only [Option.isSome_none, Bool.false_eq_true, if_false]
    rw [Prog.run_bind, h.lookup fd, hd]

theorem Tracks.onPlainFd_none (h : Tracks T p) (hd : T fd = none) (refused : α) (k : Descriptor → ProcessM R α) :
    (onPlainFd fd refused k).run p = .ok refused p := by
  unfold onPlainFd
  split
  · rfl
  · rename_i hne
    rw [(isValidFd_cases fd).resolve_left hne, Prog.run_bind, h.fdIsdir fd, hd]
    simp only [Option.any_none, Bool.false_eq_true, if_false]
    rw [Prog.run_bind, h.lookup fd, hd]
    rfl

/-- The calls, with the lookup they share brought out. -/
theorem FdOp.exec_eq (L : FileLayer R) (fd : Int) (op : FdOp) :
    op.exec L fd =
      match op with
      | .close => onFd fd false (fun f => do
          closeFiles L f
          modifyFds (·.eraseP (·.fd == f.fd))
          return true) >>= fun r => pure (.closed r)
      | .write buffer size =>
        onPlainFd fd (-1) (fun f => liftWorld (L.fileWrite f.file buffer size.toBitVec.toInt)) >>= fun r => pure (.count r)
      | .read size withAhead =>
        onPlainFd fd (-1, []) (fun f => liftWorld (L.fileRead f.file size.toBitVec.toInt withAhead)) >>=
          fun r => pure (.bytes r)
      | .readdir => onFd fd none (readDir L) >>= fun r => pure (.name r)
      | op => op.exec L fd := by
  cases op <;> rfl

/-- A call on an open descriptor goes to the file it was opened for. -/
theorem Tracks.exec_some (h : Tracks T p) (hd : T fd = some d) (op : FdOp) :
    (op.exec L fd).run p = (op.on L d).run p := by
  rw [FdOp.exec_eq]
  cases op with
  | close =>
    simp only [FdOp.on]
    rw [Prog.run_bind, h.onFd_some hd]
    simp only [Prog.run_bind]
    cases (closeFiles L d).run p <;> rfl
  | write | read =>
    simp only [FdOp.on]
    rw [Prog.run_bind, h.onPlainFd_some hd]
    cases d.dir <;> rfl
  | readdir =>
    simp only [FdOp.on]
    rw [Prog.run_bind, h.onFd_some hd]
    unfold readDir
    cases d.dir <;> rfl
  | filesize | seek =>
    simp only [FdOp.exec, FdOp.on, sizeFile, seekFile]
    rw [Prog.run_bind, Prog.run_bind, h.lookup fd, hd]
    rfl
  | tell =>
    simp only [FdOp.exec, FdOp.on, tellFile]
    rw [Prog.run_bind, Prog.run_bind, h.lookup fd, hd]
    simp only [Prog.run_bind]
    cases (liftWorld (L.fileTell d.file) : ProcessM R Int).run p <;> rfl
  | isdir =>
    simp only [FdOp.exec, FdOp.on]
    rw [Prog.run_bind, h.fdIsdir fd, hd]
    rfl

/-- A call on a descriptor that is not open is refused. -/
theorem Tracks.exec_none (h : Tracks T p) (hd : T fd = none) (op : FdOp) :
    (op.exec L fd).run p = .ok op.refused p := by
  rw [FdOp.exec_eq]
  cases op with
  | close | readdir =>
    simp only
    rw [Prog.run_bind, h.onFd_none hd]
    rfl
  | write | read =>
    simp only
    rw [Prog.run_bind, h.onPlainFd_none hd]
    rfl
  | filesize | seek | tell =>
    simp only [FdOp.exec, sizeFile, seekFile, tellFile]
    rw [Prog.run_bind, Prog.run_bind, h.lookup fd, hd]
    rfl
  | isdir =>
    simp only [FdOp.exec]
    rw [Prog.run_bind, h.fdIsdir fd, hd]
    rfl

/-! ### Steps -/

/-- The descriptors are as they were. -/
def SameFds (p p' : Process σ) : Prop := p'.fdList = p.fdList ∧ p'.fdCounter = p.fdCounter

theorem Tracks.same {p' : Process σ} (h : Tracks T p) (hs : SameFds p p') : Tracks T p' := by
  obtain ⟨hl, hc⟩ := hs
  exact ⟨hl ▸ h.mem, hl ▸ h.nodup, hl ▸ hc ▸ h.range, hc ▸ h.counter⟩

omit [Std.Refl R] [IsTrans σ R] in
theorem liftWorld_same (m : Prog R Panic α) (p : Process σ) :
    Ends (liftWorld m) p (fun _ p' => SameFds p p') fun _ _ => True := by
  cases hm : m.run p.world with
  | ok a s =>
    have hrun : (liftWorld m).run p = .ok a {p with world := s} := by simp only [liftWorld, hm]
    exact (ends_ok hrun).mpr ⟨rfl, rfl⟩
  | error e s =>
    have hrun : (liftWorld m).run p = .error e {p with world := s} := by simp only [liftWorld, hm]
    exact (ends_error hrun).mpr trivial

theorem closeFiles_same (L : FileLayer R) (d : Descriptor) (p : Process σ) :
    Ends (closeFiles L d) p (fun _ p' => SameFds p p') fun _ _ => True := by
  unfold closeFiles
  rw [ends_bind]
  refine Ends.imp (liftWorld_same _ p) ?_
  intro _ p1 h1
  cases d.dir with
  | none => exact h1
  | some dir =>
    refine Ends.imp (liftWorld_same _ p1) ?_
    intro _ p2 h2
    exact ⟨h2.1.trans h1.1, h2.2.trans h1.2⟩

/-- The calls other than close leave the descriptors alone. -/
theorem FdOp.on_same (L : FileLayer R) (d : Descriptor) {op : FdOp} (hop : op ≠ .close) (p : Process σ) :
    Ends (op.on L d) p (fun _ p' => SameFds p p') fun _ _ => True := by
  have hlift : ∀ {β : Type} (m : Prog R Panic β) (k : β → FdReply),
      Ends (do return k (← liftWorld m)) p (fun _ p' => SameFds p p') fun _ _ => True := by
    intro β m k
    rw [ends_bind]
    exact liftWorld_same m p
  have hrefl : SameFds p p := ⟨rfl, rfl⟩
  cases op with
  | close => exact absurd rfl hop
  | write | read =>
    simp only [FdOp.on]
    split
    · exact hrefl
    · exact hlift _ _
  | filesize => exact hlift _ _
  | seek position => exact hlift _ fun _ => .done
  | tell => exact hlift _ _
  | readdir =>
    simp only [FdOp.on]
    cases d.dir with
    | none => exact hrefl
    | some dir => exact hlift _ _
  | isdir => exact hrefl

theorem Tracks.erase (h : Tracks T p) (fd : Int) :
    Tracks (Function.update T fd none) {p with fdList := p.fdList.eraseP (·.fd == fd)} where
  mem := by
    intro fd' d
    rw [mem_eraseP_key h.nodup]
    by_cases hfd : fd' = fd
    · grind
    · rw [Function.update_of_ne hfd, h.mem]
      grind
  nodup := h.nodup.sublist (List.eraseP_sublist.map _)
  range := fun d hd => h.range d (List.mem_of_mem_eraseP hd)
  counter := h.counter

theorem Tracks.fresh (h : Tracks T p) : T p.fdCounter = none := by
  cases hd : T p.fdCounter with
  | none => rfl
  | some d =>
    obtain ⟨hmem, hfd⟩ := (h.mem _ _).mp hd
    have := (h.range d hmem).2
    omega

theorem Tracks.push (h : Tracks T p) (hd : d.fd = p.fdCounter) (hc : p.fdCounter ≤ maxFd) :
    Tracks (Function.update T d.fd (some d)) {p with fdList := p.fdList ++ [d], fdCounter := p.fdCounter + 1} where
  mem := by
    intro fd d'
    rw [List.mem_append, List.mem_singleton]
    by_cases hfd : fd = d.fd
    · rw [hfd, Function.update_self]
      constructor
      · grind
      · intro hm
        rcases hm with ⟨hm | hm, heq⟩
        · have := (h.range d' hm).2
          omega
        · rw [hm]
    · rw [Function.update_of_ne hfd, h.mem]
      grind
  nodup := by
    rw [List.map_append, List.map_singleton]
    refine List.nodup_append.mpr ⟨h.nodup, List.nodup_singleton _, ?_⟩
    intro a ha b hb
    obtain ⟨d', hm, rfl⟩ := List.mem_map.mp ha
    have := (h.range d' hm).2
    rw [List.mem_singleton.mp hb]
    omega
  range := by
    intro d' hm
    rcases List.mem_append.mp hm with hm | hm
    · have := h.range d' hm
      exact ⟨this.1, by simp only; omega⟩
    · rw [List.mem_singleton.mp hm, hd]
      exact ⟨h.counter.1, by simp only; omega⟩
  counter := by
    have := h.counter
    exact ⟨by simp only; omega, by simp only; omega⟩

theorem createFileDescriptor_ends (h : Tracks T p) (hc : p.fdCounter ≤ maxFd) (path : CString) :
    Ends (createFileDescriptor L path) p
      (fun r p' => match r with
        | none => SameFds p p'
        | some d => d.fd = p.fdCounter ∧ Tracks (Function.update T d.fd (some d)) p') fun _ _ => True := by
  have hnext : (p.fdCounter + 1).bmod (2 ^ 32) = p.fdCounter + 1 := by
    have hlo := h.counter.1
    unfold initialFdCount maxFd at *
    exact Int.bmod_eq_of_le (by omega) (by omega)
  unfold createFileDescriptor
  rw [ends_bind]
  refine Ends.imp (liftWorld_same _ p) ?_
  intro file p1 h1
  cases file with
  | none => exact h1
  | some file =>
    simp only
    rw [ends_bind]
    refine Ends.imp (liftWorld_same _ p1) ?_
    intro page p2 h2
    have h2 : SameFds p p2 := ⟨h2.1.trans h1.1, h2.2.trans h1.2⟩
    cases page with
    | false => exact h2
    | true =>
      simp only [Bool.not_true, Bool.false_eq_true, if_false]
      rw [ends_bind]
      -- the counter has moved on, the list follows once the directory is open
      show Ends _ {p2 with fdCounter := (p2.fdCounter + 1).bmod (2 ^ 32)} _ _
      have hdir : ∀ q : Process σ, Ends
          (do if ← liftWorld (L.isDir file) then liftWorld (L.dirOpen file) else return none) q
          (fun _ q' => SameFds q q') fun _ _ => True := by
        intro q
        rw [ends_bind]
        refine Ends.imp (liftWorld_same _ q) ?_
        intro b q1 hq1
        cases b with
        | false => exact hq1
        | true =>
          refine Ends.imp (liftWorld_same _ q1) ?_
          intro _ q2 hq2
          exact ⟨hq2.1.trans hq1.1, hq2.2.trans hq1.2⟩
      rw [ends_bind]
      refine Ends.imp (hdir _) ?_
      intro dir p3 h3
      refine ⟨h2.2, ?_⟩
      refine ((h.same h2).push (d := ⟨p2.fdCounter, file, dir⟩) rfl (h2.2 ▸ hc)).same ⟨?_, ?_⟩
      · show p3.fdList ++ _ = _
        rw [h3.1]
      · show p3.fdCounter = _
        rw [h3.2, h2.2, hnext]

/-- The numbers handed out stay in the range of the test. -/
def FdCall.InRange (call : FdCall) (p : Process σ) : Prop :=
  match call with
  | .open _ => p.fdCounter ≤ maxFd
  | .use _ _ => True

/-- A process that has not opened anything. -/
def NoFds (p : Process σ) : Prop := p.fdList = [] ∧ p.fdCounter = initialFdCount

theorem NoFds.tracks (h : NoFds p) : Tracks (table []) p where
  mem := by
    intro fd d
    rw [h.1]
    simp [table]
  nodup := by simp [h.1]
  range := by simp [h.1]
  counter := by rw [h.2]; decide

theorem table_use {h : List (FdCall × FdReply)} {op : FdOp} (hop : op ≠ .close) (r : FdReply) :
    table ((.use fd op, r) :: h) = table h := by
  cases op <;> first | rfl | exact absurd rfl hop

theorem Tracks.use {h : List (FdCall × FdReply)} (ht : Tracks (table h) p) (fd : Int) (op : FdOp) :
    Ends (op.exec L fd) p (fun r p' => Tracks (table ((.use fd op, r) :: h)) p') fun _ _ => True := by
  cases hd : table h fd with
  | none =>
    rw [ends_ok (ht.exec_none hd op)]
    by_cases hop : op = .close
    · subst hop
      exact ht
    · rwa [table_use hop]
  | some d =>
    have hrun := ht.exec_some (L := L) hd op
    unfold Ends
    rw [hrun]
    show Ends (op.on L d) p _ _
    by_cases hop : op = .close
    · subst hop
      simp only [FdOp.on]
      rw [ends_bind]
      refine Ends.imp (closeFiles_same L d p) ?_
      intro _ p1 h1
      have hfd := ((ht.mem fd d).mp hd).2
      show Tracks (Function.update (table h) fd none) {p1 with fdList := p1.fdList.eraseP (·.fd == d.fd)}
      rw [hfd]
      exact (ht.same h1).erase fd
    · refine Ends.imp (FdOp.on_same L d hop p) ?_
      intro r p1 h1
      rw [table_use hop]
      exact ht.same h1

theorem tracks_of_run {h : List (FdCall × FdReply)} (hr : Run (FdCall.exec L) FdCall.InRange NoFds h p) :
    Tracks (table h) p ∧ OpensFresh h := by
  refine hr.invariant (J := fun h p => Tracks (table h) p ∧ OpensFresh h) (fun p hp => ⟨hp.tracks, trivial⟩) ?_
  intro h p call hJ hcall
  obtain ⟨ht, hf⟩ := hJ
  cases call with
  | use fd op => exact (ht.use fd op).imp fun r p' hr => ⟨hr, hf⟩
  | «open» path =>
    unfold FdCall.exec
    rw [ends_bind]
    refine (createFileDescriptor_ends ht hcall path).imp ?_
    intro r p' hr
    cases r with
    | none => exact ⟨ht.same hr, hf⟩
    | some d =>
      obtain ⟨hd, ht'⟩ : d.fd = p.fdCounter ∧ Tracks (Function.update (table h) d.fd (some d)) p' := hr
      refine ⟨ht', ?_, ?_, hf⟩
      · have := ht.counter.1
        unfold initialFdCount at this
        omega
      · rw [hd, ht.fresh]

/-! ### Exit -/

theorem Tracks.closeEach {l : List Descriptor} (h : Tracks T p) (hl : ∀ d ∈ l, d ∈ p.fdList) :
    (closeEach L l).run p = (closeAll L l).run p := by
  induction l generalizing p with
  | nil => rfl
  | cons d l ih =>
    have hd : T d.fd = some d := (h.mem _ _).mpr ⟨hl d List.mem_cons_self, rfl⟩
    have hclose : (closeFd L d.fd false).run p = (do closeFiles L d; return true : ProcessM R Bool).run p :=
      h.onFd_some hd false fun f => do
        closeFiles L f
        return true
    unfold Filesys.closeEach closeAll
    rw [Prog.run_bind, Prog.run_bind, hclose, Prog.run_bind]
    have hsame := closeFiles_same L d p
    cases hx : (closeFiles L d).run p with
    | error e p1 => rfl
    | ok u p1 =>
      have hp1 : SameFds p p1 := (ends_ok hx).mp hsame
      exact ih (h.same hp1) fun d' hd' => hp1.1 ▸ hl d' (List.mem_cons_of_mem _ hd')

theorem Tracks.exitFds (h : Tracks T p) :
    (exitFds L).run p = (do closeAll L p.fdList; modifyFds fun _ => [] : ProcessM R Unit).run p := by
  have hform : (Filesys.exitFds L).run p = (do Filesys.closeEach L p.fdList; modifyFds fun _ => [] : ProcessM R Unit).run p := rfl
  rw [hform, Prog.run_bind, Prog.run_bind, h.closeEach fun _ => id]

/-- As long as the numbers handed out stay in the range, every descriptor that an open returns is a new
one, every call that names an open descriptor acts on the file it was opened for, and a call that names
another one is refused; so a close succeeds once. Exit closes the file, and the directory, of every
descriptor that is still open, and each once. -/
theorem descriptors_name_files {h : List (FdCall × FdReply)} (hr : Run (FdCall.exec L) FdCall.InRange NoFds h p) :
    OpensFresh h ∧
    (∀ fd d (op : FdOp), table h fd = some d → (op.exec L fd).run p = (op.on L d).run p) ∧
    (∀ fd (op : FdOp), table h fd = none → (op.exec L fd).run p = .ok op.refused p) ∧
    ∃ ds, (ds.map Descriptor.fd).Nodup ∧ (∀ d, d ∈ ds ↔ table h d.fd = some d) ∧
      (exitFds L).run p = (do closeAll L ds; modifyFds fun _ => [] : ProcessM R Unit).run p := by
  obtain ⟨ht, hf⟩ := tracks_of_run hr
  refine ⟨hf, fun fd d op hd => ht.exec_some hd op, fun fd op hd => ht.exec_none hd op, p.fdList, ht.nodup, ?_,
    ht.exitFds⟩
  intro d
  rw [ht.mem]
  exact ⟨fun hd => ⟨hd, rfl⟩, fun hd => hd.1⟩

end

/-! ### A file system that records -/

section Recorder

inductive FileEvent where
  | opened (file : Nat)
  | closed (file : Nat)
  | closedDir (dir : Nat)
  | used (file : Nat)
deriving DecidableEq

/-- The number of files opened so far, and what was done to them, the newest first. -/
structure Recorder where
  next : Nat
  log : List FileEvent
deriving DecidableEq

def Recorder.Moves (_ _ : Recorder) : Prop := True

instance : Std.Refl Recorder.Moves := ⟨fun _ => trivial⟩
instance : IsTrans Recorder Recorder.Moves := ⟨fun _ _ _ _ _ => trivial⟩

def note (e : FileEvent) : Prog Recorder.Moves Panic Unit :=
  Prog.update (fun w => {w with log := e :: w.log}) fun _ => trivial

/-- Every open succeeds, and every second file is a directory. -/
def recorder : FileLayer Recorder.Moves where
  pallocGetPage := pure true
  filesysOpen := fun _ =>
    ⟨fun w => .ok (some w.next) ⟨w.next + 1, .opened w.next :: w.log⟩, fun _ => trivial⟩
  isDir := fun file => pure (file % 2 == 1)
  dirOpen := fun file => pure (some file)
  fileClose := fun file => note (.closed file)
  dirClose := fun dir => note (.closedDir dir)
  fileWrite := fun file _ size => do
    note (.used file)
    return size
  fileRead := fun file _ _ => do
    note (.used file)
    return (0, [])
  fileLength := fun file => do
    note (.used file)
    return 0
  fileSeek := fun file _ => note (.used file)
  fileTell := fun file => do
    note (.used file)
    return 0
  dirReaddir := fun dir => do
    note (.used dir)
    return none
  inumber := fun file => do
    note (.used file)
    return 0

def noFds : Process Recorder := ⟨⟨0, []⟩, [], initialFdCount⟩

/-- What the process has done to files when it has exited. -/
def logAtExit (p : Process Recorder) : Option (List FileEvent) :=
  match (exitFds recorder).run p with
  | .ok _ p' => some p'.world.log
  | .error _ _ => none

/-- A file and a directory are opened, the file is written and closed, and closed again. -/
def fewCalls : List FdCall :=
  [.open [97], .open [98], .use 2 (.write (fun _ => 0) 5), .use 2 .close, .use 2 .close]

instance (call : FdCall) (p : Process Recorder) : Decidable (call.InRange p) :=
  match call with
  | .open _ => inferInstanceAs (Decidable (p.fdCounter ≤ maxFd))
  | .use _ _ => inferInstanceAs (Decidable True)

theorem descriptors_name_two_files : ∃ h p, Run (FdCall.exec recorder) FdCall.InRange NoFds h p ∧
    h.map Prod.snd = [.closed false, .closed true, .count 5, .opened (some ⟨3, 1, some 1⟩), .opened (some ⟨2, 0, none⟩)] ∧
    OpensFresh h ∧ (FdOp.exec recorder 3 .close).run p = (FdOp.on recorder ⟨3, 1, some 1⟩ .close).run p := by
  have hc : ∀ (call : FdCall) (p : Process Recorder), decide (call.InRange p) = true → call.InRange p :=
    fun _ _ => of_decide_eq_true
  have h0 : NoFds noFds := ⟨rfl, rfl⟩
  have hrun : ∃ h p, Run (FdCall.exec recorder) FdCall.InRange NoFds h p ∧ (decide (h.map Prod.snd =
      [.closed false, .closed true, .count 5, .opened (some ⟨3, 1, some 1⟩), .opened (some ⟨2, 0, none⟩)]) &&
      decide (table h 3 = some ⟨3, 1, some 1⟩)) = true := by
    have hreplay : (replay (FdCall.exec recorder) (fun call p => decide (call.InRange p)) fewCalls [] noFds).any
        (fun x => decide (x.1.map Prod.snd =
          [.closed false, .closed true, .count 5, .opened (some ⟨3, 1, some 1⟩), .opened (some ⟨2, 0, none⟩)]) &&
          decide (table x.1 3 = some ⟨3, 1, some 1⟩)) = true := by decide +kernel
    exact Run.of_replay (p := fun h _ => decide (h.map Prod.snd = _) && decide (table h 3 = _)) hc h0 hreplay
  obtain ⟨h, p, hr, hp⟩ := hrun
  rw [Bool.and_eq_true, decide_eq_true_eq, decide_eq_true_eq] at hp
  have hall := descriptors_name_files hr
  exact ⟨h, p, hr, hp.1, hall.1, hall.2.1 3 _ .close hp.2⟩

/-- A file is opened and closed 1024 times over, and then opened once more. -/
def manyCalls : List FdCall :=
  ((List.range 1024).flatMap fun n => [.open [97], .use (n + 2 : Nat) .close]) ++ [.open [97]]

/-- The last open returns 1026: the descriptor is open, but a close is refused, and exit does not
close its file. -/
theorem descriptor_beyond_range : ∃ h p d, Run (FdCall.exec recorder) (fun _ _ => True) NoFds h p ∧
    table h 1026 = some d ∧ (FdOp.exec recorder 1026 .close).run p = .ok (.closed false) p ∧
    ∃ log, logAtExit p = some log ∧ .opened d.file ∈ log ∧ .closed d.file ∉ log := by
  have hrun : ∃ h p, Run (FdCall.exec recorder) (fun _ _ => True) NoFds h p ∧
      (decide (table h 1026 = some ⟨1026, 1024, none⟩) &&
        (logAtExit p).any fun log => decide (.opened 1024 ∈ log ∧ .closed 1024 ∉ log)) = true := by
    have hreplay : (replay (FdCall.exec recorder) (fun _ _ => true) manyCalls [] noFds).any
        (fun x => decide (table x.1 1026 = some ⟨1026, 1024, none⟩) &&
          (logAtExit x.2).any fun log => decide (.opened 1024 ∈ log ∧ .closed 1024 ∉ log)) = true := by
      decide +kernel
    exact Run.of_replay (p := fun h p => decide (table h 1026 = _) && (logAtExit p).any fun log => decide _)
      (fun _ _ _ => trivial) ⟨rfl, rfl⟩ hreplay
  obtain ⟨h, p, hr, hp⟩ := hrun
  rw [Bool.and_eq_true, decide_eq_true_eq] at hp
  obtain ⟨log, hlog, hin⟩ := (Option.any_eq_true ..).mp hp.2
  rw [decide_eq_true_eq] at hin
  exact ⟨h, p, _, hr, hp.1, rfl, log, hlog, hin⟩

end Recorder

end Pintos.Filesys
