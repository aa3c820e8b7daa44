import Mathlib.Data.Finset.Basic
import Mathlib.Data.Finset.Insert

/-!
# `SpawnProcess` and the descriptor table

`SpawnProcess` (`src/mp/util.cpp`) in one process: `fork` answers 0 in the child and its pid in the
parent, and from there on each goes its own way with its own copy of the descriptor table. The
table is the set of open descriptors. A descriptor whose `close` reported an error is closed all
the same.

`World` is what the function does not decide: the answers of the system, and what the callback and
the allocator do. The callback makes a list of arguments and leaves the table alone.

The loop that closes the child's descriptors runs up to `MaxFd()`, which is itself a descriptor,
after a conversion to `int`. `closeLoop_leaves_iff` says which descriptors that misses.
`spawnProcess_restores_iff` says which of the exits that throw leave the sockets open.

What the program that the child executes does is left out.
-/

namespace Multiprocess.Process

/-- The open descriptors of a process. -/
abbrev Table : Type := Finset Nat

/-- What `socketpair` returns when it succeeds: two descriptors that were not open. -/
structure SocketPair (table : Table) where
  fd0 : Nat
  fd1 : Nat
  fresh0 : fd0 ∉ table
  fresh1 : fd1 ∉ table
  distinct : fd0 ≠ fd1

/-- What is thrown: a `std::system_error` with its text, an exception of the callback, or
`std::bad_alloc`. -/
inductive Failure (ε : Type) where
  | systemError (what : String)
  | callback (e : ε)
  | badAlloc
  deriving DecidableEq

/-- The system, the callback and the allocator around one call. -/
structure World (ε : Type) (table : Table) where
  socketpair : Option (SocketPair table)
  fdToArgs : Nat → Except ε (List String)
  argvFits : Bool
  -- what `fork` returns in the process at hand
  fork : Int
  closeFails : Nat → Bool
  -- the soft limit, if `getrlimit` succeeds
  nofile : Option UInt64
  execFails : Bool

/-- How the call ends in the process at hand. -/
inductive Outcome (ε : Type) where
  | returned (fd : Nat)
  | threw (failure : Failure ε)
  | exited (status : Nat)
  -- the process now runs another program
  | exec (argv : List (Option String))
  deriving DecidableEq

variable {ε : Type} {table : Table}

/-- `MakeArgv`: a pointer to each argument and a null pointer. -/
def makeArgv (args : List String) : List (Option String) := args.map some ++ [none]

/-- `MaxFd`. -/
def maxFd (nofile : Option UInt64) : UInt64 :=
  match nofile with
  | some rlimCur => rlimCur - 1
  | none => 1023

/-- The conversion of a `size_t` to `int`. -/
def toInt (n : UInt64) : Int :=
  if n.toNat % 4294967296 < 2147483648 then (n.toNat % 4294967296 : Nat)
  else (n.toNat % 4294967296 : Nat) - 4294967296

/-- So many rounds of the closing loop, from the descriptor on. -/
def closeLoop (keep : Nat) : Nat → Nat → Table → Table
  | 0, _, t => t
  | n + 1, fd, t => closeLoop keep n (fd + 1) (if fd ≠ keep then t.erase fd else t)

/-- `for (int fd = 3; fd < maxFd; ++fd)`. -/
def closeOthers (keep : Nat) (nofile : Option UInt64) (t : Table) : Table :=
  closeLoop keep (toInt (maxFd nofile) - 3).toNat 3 t

/-- The rest of the child. -/
def runChild (w : World ε table) (fd0 : Nat) (argv : List (Option String)) (t : Table) :
    Outcome ε × Table :=
  let t := closeOthers fd0 w.nofile t
  if w.execFails then (.exited 127, t) else (.exec argv, t)

/-- What follows the `fork`. -/
def afterFork (w : World ε table) (pid : Int) (fd0 fd1 : Nat) (argv : List (Option String))
    (t : Table) : Outcome ε × Table :=
  let fd := if pid ≠ 0 then fd0 else fd1
  let t := t.erase fd
  if w.closeFails fd then
    if pid ≠ 0 then (.threw (.systemError "close"), t.erase fd1) else (.exited 126, t)
  else if pid = 0 then runChild w fd0 argv t
  else (.returned fd1, t)

/-- `SpawnProcess`: how it ends, and the open descriptors then. -/
def spawnProcess (w : World ε table) : Outcome ε × Table :=
  match w.socketpair with
  | none => (.threw (.systemError "socketpair"), table)
  | some fds =>
    let t := insert fds.fd0 (insert fds.fd1 table)
    match w.fdToArgs fds.fd0 with
    | .error e => (.threw (.callback e), t)
    | .ok args =>
      if w.argvFits then
        if w.fork = -1 then (.threw (.systemError "fork"), t)
        else afterFork w w.fork fds.fd0 fds.fd1 (makeArgv args) t
      else (.threw .badAlloc, t)

/-! ## What the child keeps open -/

theorem mem_closeLoop {keep n fd : Nat} {t : Table} (d : Nat) :
    d ∈ closeLoop keep n fd t ↔ d ∈ t ∧ (d = keep ∨ d < fd ∨ fd + n ≤ d) := by
  induction n generalizing fd t with
  | zero =>
    have hall : d = keep ∨ d < fd ∨ fd + 0 ≤ d := by omega
    exact ⟨fun h => ⟨h, hall⟩, fun h => h.1⟩
  | succ n ih =>
    rw [closeLoop, ih]
    split
    · rw [Finset.mem_erase]
      constructor
      · rintro ⟨⟨hne, ht⟩, hd⟩
        exact ⟨ht, by omega⟩
      · rintro ⟨ht, hd⟩
        exact ⟨⟨by omega, ht⟩, by omega⟩
    · exact and_congr_right fun _ => by omega

/-- A `size_t` as an `int` bounds a descriptor exactly if its lower half does not read as
negative. -/
theorem lt_toInt_iff (n : UInt64) (d : Nat) :
    (d : Int) < toInt n ↔ d < n.toNat % 4294967296 ∧ n.toNat % 4294967296 < 2147483648 := by
  unfold toInt
  split <;> omega

theorem toNat_maxFd (rlimCur : UInt64) :
    (maxFd (some rlimCur)).toNat % 4294967296 = (rlimCur.toNat + 4294967295) % 4294967296 := by
  have hlt := rlimCur.toNat_lt
  rw [maxFd, UInt64.toNat_sub, show (1 : UInt64).toNat = 1 from rfl]
  omega

theorem mem_closeOthers {keep : Nat} {rlimCur : UInt64} {t : Table} {d : Nat} (hd : 3 ≤ d) :
    d ∈ closeOthers keep (some rlimCur) t ↔ d ∈ t ∧
      (d = keep ∨ ¬ (d < (rlimCur.toNat + 4294967295) % 4294967296 ∧
        (rlimCur.toNat + 4294967295) % 4294967296 < 2147483648)) := by
  rw [closeOthers, mem_closeLoop, ← toNat_maxFd, ← lt_toInt_iff]
  refine and_congr_right fun _ => or_congr_right ?_
  omega

/-- Past the exits before the `fork`. -/
theorem spawnProcess_fork {w : World ε table} {fds : SocketPair table} {args : List String}
    (pair : w.socketpair = some fds) (argsMade : w.fdToArgs fds.fd0 = .ok args)
    (fits : w.argvFits = true) (forked : w.fork ≠ -1) :
    spawnProcess w = afterFork w w.fork fds.fd0 fds.fd1 (makeArgv args)
      (insert fds.fd0 (insert fds.fd1 table)) := by
  simp only [spawnProcess, pair, argsMade, fits, if_true, if_neg forked]

/-- A child in which everything before the closing loop succeeded goes on with what the loop left
open. -/
theorem spawnProcess_child {w : World ε table} {fds : SocketPair table} {args : List String}
    (pair : w.socketpair = some fds) (argsMade : w.fdToArgs fds.fd0 = .ok args)
    (fits : w.argvFits = true) (child : w.fork = 0) (closed : w.closeFails fds.fd1 = false) :
    (spawnProcess w).2 = closeOthers fds.fd0 w.nofile (insert fds.fd0 table) := by
  have hrest : (insert fds.fd0 (insert fds.fd1 table)).erase fds.fd1 = insert fds.fd0 table := by
    rw [Finset.erase_insert_of_ne fds.distinct, Finset.erase_insert fds.fresh1]
  rw [spawnProcess_fork pair argsMade fits (by rw [child]; decide), child]
  simp only [afterFork, ne_eq, not_true_eq_false, if_false, if_true, closed, Bool.false_eq_true,
    hrest, runChild]
  split <;> rfl

/-- The child inherits its own socket alone if and only if each descriptor from 3 on that was
open before the call is below `rlim_cur - 1`, read as an `int`. -/
theorem child_inherits_iff (w : World ε table) (fds : SocketPair table) (args : List String)
    (rlimCur : UInt64) (pair : w.socketpair = some fds) (argsMade : w.fdToArgs fds.fd0 = .ok args)
    (fits : w.argvFits = true) (child : w.fork = 0) (closed : w.closeFails fds.fd1 = false)
    (limit : w.nofile = some rlimCur) :
    (∀ d, 3 ≤ d → (d ∈ (spawnProcess w).2 ↔ d = fds.fd0)) ↔
      ∀ d ∈ table, 3 ≤ d → d < (rlimCur.toNat + 4294967295) % 4294967296 ∧
        (rlimCur.toNat + 4294967295) % 4294967296 < 2147483648 := by
  rw [spawnProcess_child pair argsMade fits child closed, limit]
  constructor
  · intro h d ht hd
    by_contra hmissed
    have hopen : d ∈ closeOthers fds.fd0 (some rlimCur) (insert fds.fd0 table) :=
      (mem_closeOthers hd).mpr ⟨Finset.mem_insert_of_mem ht, .inr hmissed⟩
    have hown : d = fds.fd0 := (h d hd).mp hopen
    exact fds.fresh0 (hown ▸ ht)
  · intro h d hd
    rw [mem_closeOthers hd, Finset.mem_insert]
    constructor
    · intro ⟨hopen, hkept⟩
      rcases hopen with hown | ht
      · exact hown
      · exact hkept.resolve_right (not_not.mpr (h d ht hd))
    · intro hown
      exact ⟨.inl hown, .inl hown⟩

/-- For the limits in use, that is one descriptor: the highest the limit allows. -/
theorem below_iff_last {rlimCur : UInt64} (pos : 0 < rlimCur.toNat)
    (small : rlimCur.toNat ≤ 2147483648) (allowed : ∀ d ∈ table, d < rlimCur.toNat) :
    (∀ d ∈ table, 3 ≤ d → d < (rlimCur.toNat + 4294967295) % 4294967296 ∧
        (rlimCur.toNat + 4294967295) % 4294967296 < 2147483648) ↔
      (3 ≤ rlimCur.toNat - 1 → rlimCur.toNat - 1 ∉ table) := by
  have hbound : (rlimCur.toNat + 4294967295) % 4294967296 = rlimCur.toNat - 1 := by omega
  rw [hbound]
  constructor
  · intro h hlow hmem
    have hlast := (h _ hmem hlow).1
    omega
  · intro h d ht hd
    have hne : d ≠ rlimCur.toNat - 1 := fun he => h (he ▸ hd) (he ▸ ht)
    have hallowed := allowed d ht
    omega

/-- A fork under a limit of 7, with a fourth descriptor open besides the standard ones. -/
def forked (fourth : Nat) (h3 : fourth ≠ 3) (h4 : fourth ≠ 4) :
    World Unit {0, 1, 2, fourth} where
  socketpair := some
    ⟨3, 4, by simpa using h3.symm, by simpa using h4.symm, by decide⟩
  fdToArgs _ := .ok ["program"]
  argvFits := true
  fork := 0
  closeFails _ := false
  nofile := some 7
  execFails := false

/-- Descriptor 6 is within the limit and stays open. -/
theorem child_inherits_last :
    (∀ d ∈ ({0, 1, 2, 6} : Table), d < (7 : UInt64).toNat) ∧
      ¬ ∀ d, 3 ≤ d → (d ∈ (spawnProcess (forked 6 (by decide) (by decide))).2 ↔ d = 3) := by
  have hopen : 6 ∈ (spawnProcess (forked 6 (by decide) (by decide))).2 := by decide
  refine ⟨by decide, fun h => ?_⟩
  cases (h 6 (by decide)).mp hopen

theorem child_inherits_iff_five :
    (∀ d ∈ ({0, 1, 2, 5} : Table), d < (7 : UInt64).toNat) ∧
      ∀ d, 3 ≤ d → (d ∈ (spawnProcess (forked 5 (by decide) (by decide))).2 ↔ d = 3) := by
  refine ⟨by decide, ?_⟩
  exact (child_inherits_iff (forked 5 (by decide) (by decide))
    ⟨3, 4, by decide, by decide, by decide⟩ ["program"] 7 rfl rfl rfl rfl rfl rfl).mpr (by decide)

/-! ## What the parent keeps open -/

/-- From the `fork` on both exits of the parent leave what they should. -/
theorem afterFork_restores (w : World ε table) (pid : Int) (fds : SocketPair table)
    (argv : List (Option String)) {r : Outcome ε × Table}
    (h : afterFork w pid fds.fd0 fds.fd1 argv (insert fds.fd0 (insert fds.fd1 table)) = r) :
    (∀ failure, r.1 = .threw failure → r.2 = table) ∧
      ∀ fd, r.1 = .returned fd → fd ∉ table ∧ r.2 = insert fd table := by
  have hnew : fds.fd0 ∉ insert fds.fd1 table := by
    rw [Finset.mem_insert, not_or]
    exact ⟨fds.distinct, fds.fresh0⟩
  subst h
  unfold afterFork
  by_cases child : pid = 0
  · simp only [child, ne_eq, not_true_eq_false, if_false, if_true, runChild]
    split
    · exact ⟨nofun, nofun⟩
    · split <;> exact ⟨nofun, nofun⟩
  · simp only [child, ne_eq, not_false_eq_true, if_true, if_false, Finset.erase_insert hnew]
    split
    · exact ⟨fun _ _ => Finset.erase_insert fds.fresh1, nofun⟩
    · refine ⟨nofun, fun fd hfd => ?_⟩
      cases hfd
      exact ⟨fds.fresh1, rfl⟩

/-- The parent's table is as the call promises if and only if the call did not fail between the
`socketpair` and the first `close`: in the callback, in `MakeArgv` or in `fork`. -/
theorem spawnProcess_restores_iff (w : World ε table) :
    ((∀ failure, (spawnProcess w).1 = .threw failure → (spawnProcess w).2 = table) ∧
      ∀ fd, (spawnProcess w).1 = .returned fd →
        fd ∉ table ∧ (spawnProcess w).2 = insert fd table) ↔
    ∀ fds, w.socketpair = some fds →
      (∃ args, w.fdToArgs fds.fd0 = .ok args) ∧ w.argvFits = true ∧ w.fork ≠ -1 := by
  constructor
  · intro ⟨restores, _⟩ fds pair
    -- at each exit in between, both sockets are still open
    have stillOpen : ∀ failure,
        spawnProcess w ≠ (.threw failure, insert fds.fd0 (insert fds.fd1 table)) := by
      intro failure hexit
      have hopen : fds.fd0 ∈ (spawnProcess w).2 := by
        rw [hexit]
        exact Finset.mem_insert_self _ _
      rw [restores failure (by rw [hexit])] at hopen
      exact fds.fresh0 hopen
    cases hargs : w.fdToArgs fds.fd0 with
    | error e => exact absurd (by simp only [spawnProcess, pair, hargs]) (stillOpen (.callback e))
    | ok args =>
      refine ⟨⟨args, rfl⟩, ?_, ?_⟩
      · by_contra hfits
        exact absurd (by simp only [spawnProcess, pair, hargs, if_neg hfits]) (stillOpen .badAlloc)
      · intro hfork
        by_cases hfits : w.argvFits = true
        · exact absurd (by simp only [spawnProcess, pair, hargs, hfits, hfork, if_true])
            (stillOpen (.systemError "fork"))
        · exact absurd (by simp only [spawnProcess, pair, hargs, if_neg hfits])
            (stillOpen .badAlloc)
  · intro h
    cases pair : w.socketpair with
    | none =>
      have hexit : spawnProcess w = (.threw (.systemError "socketpair"), table) := by
        simp only [spawnProcess, pair]
      rw [hexit]
      exact ⟨fun _ _ => rfl, nofun⟩
    | some fds =>
      obtain ⟨⟨args, hargs⟩, hfits, hforked⟩ := h fds pair
      exact afterFork_restores w w.fork fds (makeArgv args)
        (spawnProcess_fork pair hargs hfits hforked).symm

/-- When the callback throws, both sockets stay open. -/
theorem spawnProcess_leaks :
    ¬ ∀ w : World Unit {0, 1, 2},
      (∀ failure, (spawnProcess w).1 = .threw failure → (spawnProcess w).2 = {0, 1, 2}) ∧
        ∀ fd, (spawnProcess w).1 = .returned fd →
          fd ∉ ({0, 1, 2} : Table) ∧ (spawnProcess w).2 = insert fd {0, 1, 2} := by
  intro h
  have hexit := (h ⟨some ⟨3, 4, by decide, by decide, by decide⟩, fun _ => .error (), true, 100,
    fun _ => false, some 1024, false⟩).1 (.callback ()) rfl
  revert hexit
  decide

end Multiprocess.Process
