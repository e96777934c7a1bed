import Klish.Kentry

/-!
# Parsed arguments

A `Kpargv` collects what one parse has recognised so far: the accepted arguments, the
candidates for completion, the ENTRY that will be executed and the argument under test.
-/

namespace Klish

/-- `SIZE_MAX`, the largest `size_t`. -/
def sizeMax : ℕ := UInt64.size - 1

/-- Decrement of a `size_t`. It wraps below zero. -/
def sizeDec (n : ℕ) : ℕ := if n = 0 then sizeMax else n - 1

/-- Increment of a `size_t`. It wraps above `SIZE_MAX`. -/
def sizeInc (n : ℕ) : ℕ := if n = sizeMax then 0 else n + 1

/-- `faux_str_is_empty`: NULL and the empty string alike. -/
def strIsEmpty : Option String → Bool
  | none => true
  | some s => s.isEmpty

inductive KpargvStatus where
  | none | ok | notfound | error | noaction
  deriving DecidableEq, Repr

inductive KpargvPurpose where
  | none | exec | completion | help
  deriving DecidableEq, Repr

structure Kparg where
  entry : EntryId
  value : Option String
  deriving DecidableEq, Repr

structure Kpargv where
  pargs : List Kparg
  completions : List EntryId
  status : KpargvStatus
  level : ℕ
  command : Option EntryId
  continuable : Bool
  purpose : KpargvPurpose
  lastArg : Option String
  candidateParg : Option Kparg
  deriving DecidableEq, Repr

namespace Kpargv

/-- `kpargv_new` -/
def new : Kpargv where
  pargs := []
  completions := []
  status := .none
  level := 0
  command := none
  continuable := false
  purpose := .exec
  lastArg := none
  candidateParg := none

/-- `kpargv_add_pargs` -/
def addPargs (pargv : Kpargv) (parg : Kparg) : Kpargv :=
  { pargv with pargs := pargv.pargs ++ [parg] }

/-- `kpargv_add_completions`: the list is unique by ENTRY name. -/
def addCompletions (scheme : Kscheme) (pargv : Kpargv) (e : EntryId) : Kpargv :=
  if pargv.completions.any fun c => scheme.name c == scheme.name e then pargv
  else { pargv with completions := pargv.completions ++ [e] }

/-- `kpargv_entry_exists` -/
def entryExists (pargv : Kpargv) (e : EntryId) : Bool :=
  pargv.pargs.any fun parg => parg.entry == e

/-- `kpargv_accept_candidate_parg` -/
def acceptCandidateParg (pargv : Kpargv) : Kpargv :=
  match pargv.candidateParg with
  | none => pargv
  | some candidate => { pargv with candidateParg := none }.addPargs candidate

/-- `kpargv_decline_candidate_parg` -/
def declineCandidateParg (pargv : Kpargv) : Kpargv :=
  { pargv with candidateParg := none }

/-- `kpargv_find_multi` -/
def findMulti (scheme : Kscheme) (pargv : Kpargv) (entryName : String) : List Kparg :=
  pargv.pargs.filter fun parg => scheme.name parg.entry == entryName

section Fields

variable (scheme : Kscheme) (pargv : Kpargv) (parg : Kparg) (e : EntryId)

@[simp] theorem addPargs_pargs : (pargv.addPargs parg).pargs = pargv.pargs ++ [parg] := rfl

@[simp] theorem addPargs_command : (pargv.addPargs parg).command = pargv.command := rfl

@[simp] theorem addPargs_candidateParg :
    (pargv.addPargs parg).candidateParg = pargv.candidateParg := rfl

@[simp] theorem addPargs_purpose : (pargv.addPargs parg).purpose = pargv.purpose := rfl

@[simp] theorem addCompletions_pargs : (pargv.addCompletions scheme e).pargs = pargv.pargs := by
  unfold addCompletions; split <;> rfl

@[simp] theorem addCompletions_command :
    (pargv.addCompletions scheme e).command = pargv.command := by
  unfold addCompletions; split <;> rfl

@[simp] theorem addCompletions_candidateParg :
    (pargv.addCompletions scheme e).candidateParg = pargv.candidateParg := by
  unfold addCompletions; split <;> rfl

@[simp] theorem addCompletions_purpose :
    (pargv.addCompletions scheme e).purpose = pargv.purpose := by
  unfold addCompletions; split <;> rfl

end Fields

@[simp] theorem entryExists_new (e : EntryId) : new.entryExists e = false := rfl

theorem entryExists_addPargs {pargv : Kpargv} {parg : Kparg} {e : EntryId} :
    (pargv.addPargs parg).entryExists e = true ↔ pargv.entryExists e = true ∨ parg.entry = e := by
  simp [entryExists]

end Kpargv

end Klish
