import RunLog.Text.Cut

/-! # Nodes of a run

A run is a tree of nodes. A node has a kind, a role, a path from the root, and flags. -/

namespace RunLog

/-- The kind of a node. -/
inductive NodeKind where
  | step
  | retryIteration
  | iteration
  | outline
  | test
  | suite
  | module
deriving DecidableEq, Repr

namespace NodeKind

def name : NodeKind → String
  | step => "Step"
  | retryIteration => "RetryIteration"
  | iteration => "Iteration"
  | outline => "Outline"
  | test => "Test"
  | suite => "Suite"
  | module => "Module"

/-- Every kind, in ascending rank. -/
def all : List NodeKind := [step, retryIteration, iteration, outline, test, suite, module]

def rank : NodeKind → Nat
  | step => 0
  | retryIteration => 1
  | iteration => 2
  | outline => 3
  | test => 4
  | suite => 5
  | module => 6

/-- Iterations and everything larger stand on their own in a report. -/
def isReported (k : NodeKind) : Bool := iteration.rank ≤ k.rank

def ofName? (raw : String) : Option NodeKind := all.find? (·.name = raw)

end NodeKind

/-- What a node stands for in a feature description. -/
inductive Role where
  | book
  | feature
  | chapter
  | scenario
  | document
  | docSection
  | page
  | sample
  | background
  | recipe
  | critical
  | check
  | major
  | minor
  | givenStep
  | paragraph
  | whenStep
  | thenStep
  | andStep
  | butStep
  | byStep
  | finallyStep
  | cleanup
deriving DecidableEq, Repr

namespace Role

def name : Role → String
  | book => "Book"
  | feature => "Feature"
  | chapter => "Chapter"
  | scenario => "Scenario"
  | document => "Document"
  | docSection => "Section"
  | page => "Page"
  | sample => "Example"
  | background => "Background"
  | recipe => "Recipe"
  | critical => "Critical"
  | check => "Check"
  | major => "Major"
  | minor => "Minor"
  | givenStep => "Given"
  | paragraph => "Paragraph"
  | whenStep => "When"
  | thenStep => "Then"
  | andStep => "And"
  | butStep => "But"
  | byStep => "By"
  | finallyStep => "Finally"
  | cleanup => "Cleanup"

def all : List Role :=
  [book, feature, chapter, scenario, document, docSection, page, sample, background, recipe,
   critical, check, major, minor, givenStep, paragraph, whenStep, thenStep, andStep, butStep,
   byStep, finallyStep, cleanup]

def ofName? (raw : String) : Option Role := all.find? (·.name = raw)

end Role

/-- The path of a node from the root, by position among siblings. The empty path is the root. -/
structure NodeId where
  path : List UInt32
deriving DecidableEq, Repr, Hashable

namespace NodeId

def root : NodeId := ⟨[]⟩

def depth (id : NodeId) : Nat := id.path.length

def isRoot (id : NodeId) : Bool := id.path.isEmpty

/-- The node above, if this is not the root. -/
def parent? (id : NodeId) : Option NodeId :=
  if id.path.isEmpty then none else some ⟨id.path.dropLast⟩

def child (id : NodeId) (index : UInt32) : NodeId := ⟨id.path ++ [index]⟩

/-- A strict initial part of the other path. -/
def isAncestorOf (a b : NodeId) : Bool := a.path.isPrefixOf b.path && a.path ≠ b.path

/-- The written form: positions with slashes between them. -/
def chars (id : NodeId) : List Char :=
  List.intercalate ['/'] (id.path.map fun n => Nat.toDigits 10 n.toNat)

def render (id : NodeId) : String := String.ofList id.chars

/-- A position: decimal digits, a leading plus allowed, of 32 bits. -/
def readPosition? (cs : List Char) : Option UInt32 :=
  let ds := match cs with
    | '+' :: rest => rest
    | _ => cs
  if ds ≠ [] ∧ ds.all Char.isDigit then
    let n := ds.foldl (fun n c => n * 10 + (c.toNat - '0'.toNat)) 0
    if n < UInt32.size then some (.ofNat n) else none
  else none

/-- Reads a written path; one slash in front is tolerated. -/
def read? (cs : List Char) : Option NodeId :=
  let cs := match cs with
    | '/' :: rest => rest
    | _ => cs
  if cs.isEmpty then some root
  else ((Text.cut '/' cs).mapM readPosition?).map NodeId.mk

def ofString? (s : String) : Option NodeId := read? s.toList

end NodeId

/-- Bits that say how a node is to be treated. Unnamed bits are carried along. -/
structure Flags where
  bits : UInt64
deriving DecidableEq, Repr

namespace Flags

def none : Flags := ⟨0⟩

/-- Marks a node that is not run. -/
def skip : Flags := ⟨(1 : UInt64) <<< 2⟩

/-- Marks a node that runs under a retry. -/
def nestedRetry : Flags := ⟨(1 : UInt64) <<< 43⟩

/-- All the other's bits are set, of which there is at least one. -/
def contains (a b : Flags) : Bool := b.bits ≠ 0 && a.bits &&& b.bits = b.bits

def union (a b : Flags) : Flags := ⟨a.bits ||| b.bits⟩

end Flags

end RunLog
