import Pintos.Userprog.Process

/-! The steps of a process as rules.

Each rule is one step of the thread at page `p`, with the fields `t`: what it requires, and the
state it leaves. Every step that can be taken is an instance of one rule. -/
namespace Pintos.Userprog
open Intrusive Steps

/-- One round of `get_thread` along `all_list`. -/
inductive Seeks (s : Kernel) (tid : Nat) : Option Nat → Sought → Prop where
  | found {q : Nat} {t : Proc} : s.procs q = some t → t.tid = tid → Seeks s tid (some q) (.found q t)
  | missing : Seeks s tid none .missing
  | further {q : Nat} {t : Proc} {at' : Option Nat} : s.procs q = some t → t.tid ≠ tid →
      nextInAll s.allList q = .ok at' → Seeks s tid (some q) (.further at')

inductive Trans (s : Kernel) (p : Nat) (t : Proc) : Kernel → Prop where
  | exec {page : Nat} {relative : Bool} {s' : Kernel} : t.pc = .user → threadCreate s p t page relative = .ok s' →
      Trans s p t (s'.goto p (.push .elem s.nextTid page))
  | pushElem {child page : Nat} : t.pc = .push .elem child page →
      Trans s p t ({s with links := s.links.insertOwn (.tail p) (.elem page)}.goto p (.push .last child page))
  | pushLast {child page : Nat} {links : Links Node} : t.pc = .push .last child page →
      s.links.insertNext (.tail p) (.elem page) = some links →
      Trans s p t ({s with links := links}.goto p (.push .tail child page))
  | pushTail {child page : Nat} : t.pc = .push .tail child page →
      Trans s p t (({s with links := s.links.insertPrev (.tail p) (.elem page)}.modify page fun t =>
        {t with blocked := false}).goto p (.execWd child))
  | wait {child : Nat} {e : Node} : t.pc = .user → s.links.next (.head p) = some e →
      Trans s p t (s.goto p (.waitFind child e))
  | exit {status : Int} : t.pc = .user → t.tid ≠ initialTid →
      Trans s p t ((s.note (.exiting t.tid status)).modify p fun t => {t with exitValue := status, pc := .exitClose})
  | chdir {dir : Option Nat} : t.pc = .user →
      Trans s p t (((s.dropRef t.tid t.workingDirectory).addRef t.tid dir).modify p fun t =>
        {t with workingDirectory := dir})
  | execNoWd {child : Nat} : t.pc = .execWd child → t.workingDirectory = none →
      Trans s p t (s.goto p (.execFind child s.allList.head?))
  | execWd {child dir : Nat} : t.pc = .execWd child → t.workingDirectory = some dir →
      Trans s p t (s.goto p (.execReopen child dir))
  | execReopen {child dir : Nat} : t.pc = .execReopen child dir →
      Trans s p t ((s.addRef child (some dir)).goto p (.execStoreWd child (some dir) s.allList.head?))
  | execNoMemory {child dir : Nat} : t.pc = .execReopen child dir →
      Trans s p t (s.goto p (.execStoreWd child none s.allList.head?))
  | execSeekWd {child : Nat} {dir at_ at' : Option Nat} : t.pc = .execStoreWd child dir at_ →
      Seeks s child at_ (.further at') → Trans s p t (s.goto p (.execStoreWd child dir at'))
  | execStoreWd {child q : Nat} {dir at_ : Option Nat} {tq : Proc} : t.pc = .execStoreWd child dir at_ →
      Seeks s child at_ (.found q tq) →
      Trans s p t ((s.modify q fun t => {t with workingDirectory := dir}).goto p (.execFind child s.allList.head?))
  | execSeek {child : Nat} {at_ at' : Option Nat} : t.pc = .execFind child at_ → Seeks s child at_ (.further at') →
      Trans s p t (s.goto p (.execFind child at'))
  | execFind {child q : Nat} {at_ : Option Nat} {tq : Proc} : t.pc = .execFind child at_ →
      Seeks s child at_ (.found q tq) → Trans s p t (s.goto p (.execDown child q))
  | execDown {child q : Nat} {tq : Proc} : t.pc = .execDown child q → s.procs q = some tq → 0 < tq.loadDone →
      Trans s p t ((s.modify q fun t => {t with loadDone := t.loadDone - 1}).goto p (.execStatus child s.allList.head?))
  | execSeekStatus {child : Nat} {at_ at' : Option Nat} : t.pc = .execStatus child at_ →
      Seeks s child at_ (.further at') → Trans s p t (s.goto p (.execStatus child at'))
  | execLost {child : Nat} {at_ : Option Nat} : t.pc = .execStatus child at_ → Seeks s child at_ .missing →
      Trans s p t ((s.note (.execReturned t.tid child none)).goto p .user)
  | execReturn {child q : Nat} {at_ : Option Nat} {tq : Proc} : t.pc = .execStatus child at_ →
      Seeks s child at_ (.found q tq) →
      Trans s p t ((s.note (.execReturned t.tid child (if tq.loadSuccessStatus then some child else none))).goto p .user)
  | waitEnd {child : Nat} : t.pc = .waitFind child (.tail p) →
      Trans s p t ((s.note (.waitRefused t.tid child)).goto p .user)
  | waitNext {child q : Nat} {tq : Proc} {e : Node} : t.pc = .waitFind child (.elem q) → s.procs q = some tq →
      tq.tid ≠ child → s.links.next (.elem q) = some e → Trans s p t (s.goto p (.waitFind child e))
  | waitAgain {child q : Nat} {tq : Proc} : t.pc = .waitFind child (.elem q) → s.procs q = some tq → tq.tid = child →
      tq.waitOnCalled = true → Trans s p t ((s.note (.waitRefused t.tid child)).goto p .user)
  | waitFound {child q : Nat} {tq : Proc} : t.pc = .waitFind child (.elem q) → s.procs q = some tq → tq.tid = child →
      tq.waitOnCalled = false →
      Trans s p t ((s.modify q fun t => {t with waitOnCalled := true}).goto p (.waitDown child q))
  | waitDown {child q : Nat} {tq : Proc} : t.pc = .waitDown child q → s.procs q = some tq → 0 < tq.exited →
      Trans s p t ((s.modify q fun t => {t with exited := t.exited - 1}).goto p (.waitUp child q tq.exitValue))
  | waitUp {child q : Nat} {value : Int} {tq : Proc} : t.pc = .waitUp child q value → s.procs q = some tq →
      Trans s p t (((s.modify q fun t => {t with canFree := t.canFree + 1}).note
        (.waitReturned t.tid child value)).goto p .user)
  | startAbsolute : t.pc = .start false → Trans s p t (s.goto p .opened)
  | startRelative : t.pc = .start true → t.workingDirectory.isSome = true → Trans s p t (s.goto p .resolve)
  | startNull : t.pc = .start true → t.workingDirectory = none → Trans s p t (s.goto p .openRoot)
  | openRoot : t.pc = .openRoot → Trans s p t
      ((s.addRef t.tid (some Filesys.rootDirSector)).goto p (.storeRoot (some Filesys.rootDirSector)))
  | openNoMemory : t.pc = .openRoot → Trans s p t (s.goto p (.storeRoot none))
  | storeRoot {dir : Option Nat} : t.pc = .storeRoot dir →
      Trans s p t (s.modify p fun t => {t with workingDirectory := dir, pc := .resolve})
  | resolve : t.pc = .resolve → Trans s p t ((s.note (.resolved t.tid t.workingDirectory)).goto p .opened)
  | resolveNoMemory : t.pc = .resolve → Trans s p t (s.goto p (.loaded false))
  | opened {success : Bool} : t.pc = .opened → Trans s p t (s.goto p (.loaded success))
  | loaded {success : Bool} : t.pc = .loaded success →
      Trans s p t ((s.note (.loaded t.tid success)).modify p fun t =>
        {t with loadSuccessStatus := success, pc := .loadUp success})
  | loadUp : t.pc = .loadUp true →
      Trans s p t ((s.note (.started t.tid t.workingDirectory (s.held t.tid))).modify p fun t =>
        {t with loadDone := t.loadDone + 1, pc := .user})
  | loadFail : t.pc = .loadUp false →
      Trans s p t (s.modify p fun t => {t with loadDone := t.loadDone + 1, pc := .exitClose})
  | exitClose : t.pc = .exitClose → Trans s p t ((s.dropRef t.tid t.workingDirectory).goto p .exitUp)
  | exitUp : t.pc = .exitUp → Trans s p t (s.modify p fun t => {t with exited := t.exited + 1, pc := .exitBegin})
  | exitBegin {e : Node} : t.pc = .exitBegin → s.links.next (.head p) = some e → Trans s p t (s.goto p (.exitLoop e))
  | exitEnd : t.pc = .exitLoop (.tail p) → Trans s p t (s.goto p .processExit)
  | exitLoop {q : Nat} {tq : Proc} : t.pc = .exitLoop (.elem q) → s.procs q = some tq →
      Trans s p t ((s.modify q fun t => {t with canFree := t.canFree + 1}).goto p (.exitNext (.elem q)))
  | exitNext {e e' : Node} : t.pc = .exitNext e → s.links.next e = some e' → Trans s p t (s.goto p (.exitLoop e'))
  | processExit : t.pc = .processExit →
      Trans s p t (s.modify p fun t => {t with exited := t.exited + 1, pc := .exitDown})
  | exitDown : t.pc = .exitDown → 0 < t.canFree →
      Trans s p t (s.modify p fun t => {t with canFree := t.canFree - 1, pc := .exitGone})
  | exitGone {s' : Kernel} : t.pc = .exitGone → threadGone s p = .ok s' → Trans s p t s'

section
variable {s s' : Kernel} {p : Nat} {t : Proc}

theorem get_ok {q : Nat} {tq : Proc} : s.get q = .ok tq ↔ s.procs q = some tq := by
  unfold Kernel.get
  cases s.procs q <;> simp

theorem listNext_ok {e e' : Node} : s.listNext e = .ok e' ↔ s.links.next e = some e' := by
  unfold Kernel.listNext
  cases s.links.next e <;> simp

theorem getThread_seeks {tid : Nat} {at_ : Option Nat} {r : Sought} (h : getThread s tid at_ = .ok r) :
    Seeks s tid at_ r := by
  cases at_ with
  | none =>
    cases h
    exact .missing
  | some q =>
    obtain ⟨t, ht, h⟩ := bind_ok.mp h
    rw [get_ok] at ht
    by_cases htid : t.tid = tid
    · rw [if_pos htid] at h
      cases h
      exact .found ht htid
    · rw [if_neg htid] at h
      obtain ⟨at', hat, h⟩ := bind_ok.mp h
      cases h
      exact .further ht htid hat

theorem callStep_trans {choice : Choice} (hpc : t.pc = .user) (h : callStep s p t choice = .ok s') :
    Trans s p t s' := by
  cases choice with
  | exec page relative =>
    obtain ⟨s1, h1, h⟩ := bind_ok.mp h
    cases h
    exact .exec hpc h1
  | wait child =>
    obtain ⟨e, he, h⟩ := bind_ok.mp h
    cases h
    exact .wait hpc (listNext_ok.mp he)
  | exit status | kill =>
    simp only [callStep] at h
    split at h
    · cases h
    · cases h
      exact .exit hpc ‹_›
  | chdir dir =>
    cases h
    exact .chdir hpc
  | go => cases h
  | noMemory => cases h
  | load success => cases h

theorem pushStep_trans {stage : Push} {child page : Nat} (hpc : t.pc = .push stage child page)
    (h : pushStep s p child page stage = .ok s') : Trans s p t s' := by
  cases stage with
  | elem =>
    cases h
    exact .pushElem hpc
  | last =>
    simp only [pushStep] at h
    split at h
    · cases h
    · cases h
      exact .pushLast hpc ‹_›
  | tail =>
    cases h
    exact .pushTail hpc

theorem reopenStep_trans {choice : Choice} {child dir : Nat} (hpc : t.pc = .execReopen child dir)
    (h : reopenStep s p child dir choice = .ok s') : Trans s p t s' := by
  cases choice with
  | go =>
    cases h
    exact .execReopen hpc
  | noMemory =>
    cases h
    exact .execNoMemory hpc
  | _ => cases h

theorem execStep_trans (h : execStep s p t t.pc = .ok s') : Trans s p t s' := by
  generalize hpc : t.pc = pc at h
  cases pc with
  | execWd child =>
    simp only [execStep] at h
    split at h
    · cases h
      exact .execNoWd hpc ‹_›
    · cases h
      exact .execWd hpc ‹_›
  | execStoreWd child dir at_ =>
    obtain ⟨r, hr, h⟩ := bind_ok.mp h
    have hr := getThread_seeks hr
    cases r with
    | missing => cases h
    | further at' =>
      cases h
      exact .execSeekWd hpc hr
    | found q tq =>
      cases h
      exact .execStoreWd hpc hr
  | execFind child at_ =>
    obtain ⟨r, hr, h⟩ := bind_ok.mp h
    have hr := getThread_seeks hr
    cases r with
    | missing => cases h
    | further at' =>
      cases h
      exact .execSeek hpc hr
    | found q tq =>
      cases h
      exact .execFind hpc hr
  | execDown child q =>
    obtain ⟨tq, hq, h⟩ := bind_ok.mp h
    split at h
    · cases h
    · cases h
      exact .execDown hpc (get_ok.mp hq) (Nat.pos_of_ne_zero ‹_›)
  | execStatus child at_ =>
    obtain ⟨r, hr, h⟩ := bind_ok.mp h
    have hr := getThread_seeks hr
    cases r with
    | missing =>
      cases h
      exact .execLost hpc hr
    | further at' =>
      cases h
      exact .execSeekStatus hpc hr
    | found q tq =>
      cases h
      exact .execReturn hpc hr
  | _ => cases h

theorem waitStep_trans (h : waitStep s p t t.pc = .ok s') : Trans s p t s' := by
  generalize hpc : t.pc = pc at h
  cases pc with
  | waitFind child e =>
    simp only [waitStep] at h
    split at h
    · rename_i he
      cases h
      subst he
      exact .waitEnd hpc
    · cases e with
      | elem q =>
        obtain ⟨tq, hq, h⟩ := bind_ok.mp h
        rw [get_ok] at hq
        split at h
        · rename_i htid
          split at h
          · cases h
            exact .waitAgain hpc hq htid ‹_›
          · cases h
            exact .waitFound hpc hq htid (Bool.not_eq_true _ ▸ ‹_›)
        · obtain ⟨e, he, h⟩ := bind_ok.mp h
          cases h
          exact .waitNext hpc hq ‹_› (listNext_ok.mp he)
      | head q => cases h
      | tail q => cases h
  | waitDown child q =>
    obtain ⟨tq, hq, h⟩ := bind_ok.mp h
    split at h
    · cases h
    · cases h
      exact .waitDown hpc (get_ok.mp hq) (Nat.pos_of_ne_zero ‹_›)
  | waitUp child q value =>
    obtain ⟨tq, hq, h⟩ := bind_ok.mp h
    cases h
    exact .waitUp hpc (get_ok.mp hq)
  | _ => cases h

theorem loadStep_trans {choice : Choice} (h : loadStep s p t t.pc choice = .ok s') : Trans s p t s' := by
  generalize hpc : t.pc = pc at h
  unfold loadStep at h
  split at h
  · split at h
    · cases h
    split at h
    · rename_i relative _ hrel
      cases h
      cases relative
      · exact .startAbsolute hpc
      · cases hrel
    · rename_i relative _ hrel
      cases relative
      · exact absurd rfl hrel
      · split at h
        · cases h
          exact .startRelative hpc ‹_›
        · cases h
          exact .startNull hpc (Option.not_isSome_iff_eq_none.mp ‹_›)
  · cases h
    exact .openRoot hpc
  · cases h
    exact .openNoMemory hpc
  · cases h
    exact .storeRoot hpc
  · split at h
    · cases h
      exact .resolve hpc
    · cases h
  · split at h
    · cases h
      exact .resolveNoMemory hpc
    · cases h
  · cases h
    exact .opened hpc
  · cases h
    exact .loaded hpc
  · cases h
    exact .loadUp hpc
  · cases h
    exact .loadFail hpc
  · cases h

theorem exitStep_trans (h : exitStep s p t t.pc = .ok s') : Trans s p t s' := by
  generalize hpc : t.pc = pc at h
  cases pc with
  | exitClose =>
    cases h
    exact .exitClose hpc
  | exitUp =>
    cases h
    exact .exitUp hpc
  | exitBegin =>
    obtain ⟨e, he, h⟩ := bind_ok.mp h
    cases h
    exact .exitBegin hpc (listNext_ok.mp he)
  | exitLoop e =>
    simp only [exitStep] at h
    split at h
    · rename_i he
      cases h
      subst he
      exact .exitEnd hpc
    · cases e with
      | elem q =>
        obtain ⟨tq, hq, h⟩ := bind_ok.mp h
        cases h
        exact .exitLoop hpc (get_ok.mp hq)
      | head q => cases h
      | tail q => cases h
  | exitNext e =>
    obtain ⟨e', he, h⟩ := bind_ok.mp h
    cases h
    exact .exitNext hpc (listNext_ok.mp he)
  | processExit =>
    cases h
    exact .processExit hpc
  | exitDown =>
    simp only [exitStep] at h
    split at h
    · cases h
    · cases h
      exact .exitDown hpc (Nat.pos_of_ne_zero ‹_›)
  | exitGone => exact .exitGone hpc h
  | _ => cases h

theorem step_trans {a : Act} (h : step a s = .ok s') : ∃ t, s.procs a.page = some t ∧ Trans s a.page t s' := by
  obtain ⟨t, ht, h⟩ := bind_ok.mp h
  refine ⟨t, get_ok.mp ht, ?_⟩
  cases hpc : t.pc with
  | user =>
    rw [hpc] at h
    exact callStep_trans hpc h
  | push =>
    simp only [hpc] at h
    split at h
    · exact pushStep_trans hpc h
    · cases h
  | execReopen =>
    rw [hpc] at h
    exact reopenStep_trans hpc h
  | start | openRoot | storeRoot | resolve | opened | loaded | loadUp =>
    simp only [hpc] at h
    exact loadStep_trans (hpc ▸ h)
  | execWd | execStoreWd | execFind | execDown | execStatus =>
    simp only [hpc] at h
    split at h
    · exact execStep_trans (hpc ▸ h)
    · cases h
  | waitFind | waitDown | waitUp =>
    simp only [hpc] at h
    split at h
    · exact waitStep_trans (hpc ▸ h)
    · cases h
  | exitClose | exitUp | exitBegin | exitLoop | exitNext | processExit | exitDown | exitGone =>
    simp only [hpc] at h
    split at h
    · exact exitStep_trans (hpc ▸ h)
    · cases h

end

end Pintos.Userprog
