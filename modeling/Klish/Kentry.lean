import Mathlib.Data.List.Basic
import Mathlib.Data.Option.Basic
import Mathlib.Data.Int.Notation

/-!
# Scheme objects: symbols, ACTIONs and ENTRYs

An ENTRY is named by its address. The four lists that a link shares with the ENTRY it
refers to (nested ENTRYs, ACTIONs, hotkeys and the table of nested ENTRYs by purpose) are
always released and aliased together, so they form one `Kbody`, named by its own address.
-/

namespace Klish

abbrev EntryId := ℕ
abbrev BodyId := ℕ

/-- `tri_t` -/
inductive Tri where
  | undefined | no | yes
  deriving DecidableEq, Repr

inductive KactionCond where
  | none | fail | success | always | never
  deriving DecidableEq, Repr

inductive KactionIo where
  | none | no | yes | tty
  deriving DecidableEq, Repr

namespace KactionIo

/-- The value of the enumeration constant: false < true < tty. -/
def toNat : KactionIo → ℕ
  | .none => 0 | .no => 1 | .yes => 2 | .tty => 3

end KactionIo

structure Ksym where
  name : String
  permanent : Tri
  sync : Tri
  silent : Bool
  deriving DecidableEq, Repr

structure Kaction where
  symRef : Option String
  sym : Option Ksym
  plugin : Option String
  interrupt : Bool
  inp : KactionIo
  out : KactionIo
  execOn : KactionCond
  updateRetcode : Bool
  permanent : Tri
  sync : Tri
  script : Option String
  deriving DecidableEq, Repr

namespace Kaction

/-- `kaction_new` -/
def new : Kaction where
  symRef := none
  sym := none
  plugin := none
  interrupt := false
  inp := .no
  out := .yes
  execOn := .success
  updateRetcode := true
  permanent := .no
  sync := .no
  script := none

/-- `kaction_meet_exec_conditions` -/
def meetExecConditions (action : Kaction) (currentRetcode : ℤ) : Bool :=
  match action.execOn with
  | .always => true
  | .success => decide (currentRetcode = 0)
  | .fail => decide (currentRetcode ≠ 0)
  | .none | .never => false

/-- `kaction_is_permanent` -/
def isPermanent (action : Kaction) : Bool :=
  match action.sym with
  | none => false
  | some sym =>
    let val := if sym.permanent = .undefined then action.permanent else sym.permanent
    decide (val = .yes)

/-- `kaction_is_sync` -/
def isSync (action : Kaction) : Bool :=
  match action.sym with
  | none => false
  | some sym =>
    let val := if sym.sync = .undefined then action.sync else sym.sync
    decide (val = .yes)

theorem isSync_of_sym_none {action : Kaction} (h : action.sym = none) : action.isSync = false := by
  simp [isSync, h]

end Kaction

/-- Mode of the nested ENTRYs list -/
inductive KentryMode where
  | none | sequence | switch | empty
  deriving DecidableEq, Repr

inductive KentryPurpose where
  | none | common | ptype | prompt | cond | completion | help | log
  deriving DecidableEq, Repr

inductive KentryFilter where
  | none | no | yes | dual
  deriving DecidableEq, Repr

structure Khotkey where
  key : String
  cmd : String
  deriving DecidableEq, Repr

/-- What a link shares with its target. -/
structure Kbody where
  entrys : List EntryId
  actions : List Kaction
  hotkeys : List Khotkey
  nestedByPurpose : KentryPurpose → Option EntryId

/-- The lists and the table of a new ENTRY. -/
def Kbody.new : Kbody := ⟨[], [], [], fun _ => none⟩

structure Kentry where
  name : String
  help : Option String
  parent : Option EntryId
  container : Bool
  mode : KentryMode
  purpose : KentryPurpose
  min : ℕ
  max : ℕ
  refStr : Option String
  value : Option String
  restore : Bool
  transparent : Bool
  order : Bool
  filter : KentryFilter
  body : BodyId

/-- `kentry_new` -/
def Kentry.new (name : String) (body : BodyId) : Kentry where
  name := name
  help := none
  parent := none
  container := false
  mode := .sequence
  purpose := .common
  min := 1
  max := 1
  refStr := none
  value := none
  restore := false
  transparent := true
  order := false
  filter := .no
  body := body

structure Kplugin where
  name : String
  syms : List Ksym

structure Kscheme where
  plugins : List Kplugin
  entrys : List EntryId
  entry : EntryId → Kentry
  body : BodyId → Kbody

namespace Kscheme

variable (scheme : Kscheme)

def name (e : EntryId) : String := (scheme.entry e).name
def container (e : EntryId) : Bool := (scheme.entry e).container
def purpose (e : EntryId) : KentryPurpose := (scheme.entry e).purpose
def bodyOf (e : EntryId) : Kbody := scheme.body (scheme.entry e).body
def nested (e : EntryId) : List EntryId := (scheme.bodyOf e).entrys
def actions (e : EntryId) : List Kaction := (scheme.bodyOf e).actions

/-- `kentry_nested_by_purpose` -/
def nestedByPurpose (e : EntryId) (purpose : KentryPurpose) : Option EntryId :=
  (scheme.bodyOf e).nestedByPurpose purpose

/-- The widest of the I/O attributes of a list of ACTIONs, as `kentry_in` and `kentry_out`
compute it: false < true < tty. -/
def integralIo (io : Kaction → KactionIo) (actions : List Kaction) : KactionIo :=
  actions.foldl (fun acc action =>
    if acc.toNat < (io action).toNat then io action else acc) .no

/-- `kentry_in` -/
def kentryIn (e : EntryId) : KactionIo := integralIo Kaction.inp (scheme.actions e)

/-- `kentry_out` -/
def kentryOut (e : EntryId) : KactionIo := integralIo Kaction.out (scheme.actions e)

end Kscheme

end Klish
