import Exemplar.Library

/-!
# The standard headers

The namespaces every program can use, as header texts: declarations without
bodies, linked as references and never compiled. They are read like any other
source, so the spans of their declarations point into these texts.
-/

namespace Exemplar.Headers

/-- The first line of every header text. -/
def banner : String := "// Standard header: declarations without bodies"

/-- A header text of the given lines, after the banner and an empty line. -/
def page (lines : List String) : String :=
  String.join ((banner :: "" :: lines).map (· ++ "\n"))

def core : String := page
  ["/// Core functions available to every program.",
    "namespace Std.Core \x7b",
    "    /// Marks an operation as the program entry point: `@EntryPoint()`.",
    "    newtype EntryPoint = Unit;",
    "",
    "    /// Returns the number of items in an array.",
    "    function Length(xs : Int[]) : Int;",
    "",
    "    /// Converts an integer to a double.",
    "    function IntAsDouble(value : Int) : Double;",
    "",
    "    /// Renders an integer as a string.",
    "    function IntAsString(value : Int) : String;",
    "",
    "    /// Truncates a double towards zero.",
    "    function Truncate(value : Double) : Int;",
    "\x7d"]

def intrinsic : String := page
  ["/// Operations implemented directly by every execution backend.",
    "namespace Std.Intrinsic \x7b",
    "    /// A handle to a qubit allocated by the backend.",
    "    newtype Qubit = Int;",
    "",
    "    /// The outcome of a measurement, `0` or `1`.",
    "    newtype Result = Int;",
    "",
    "    /// Allocates a fresh qubit in the zero state.",
    "    operation Allocate() : Qubit;",
    "",
    "    /// Releases a qubit; it must be back in the zero state.",
    "    operation Release(q : Qubit) : Unit;",
    "",
    "    /// Hadamard gate.",
    "    operation H(q : Qubit) : Unit;",
    "    adjoint H;",
    "",
    "    /// Pauli X gate.",
    "    operation X(q : Qubit) : Unit;",
    "    adjoint X;",
    "    controlled X;",
    "",
    "    /// Pauli Z gate.",
    "    operation Z(q : Qubit) : Unit;",
    "    adjoint Z;",
    "",
    "    /// Controlled NOT.",
    "    operation CNOT(control : Qubit, target : Qubit) : Unit;",
    "    adjoint CNOT;",
    "",
    "    /// Measures a qubit in the computational basis.",
    "    operation M(q : Qubit) : Result;",
    "",
    "    /// Measures and resets a qubit.",
    "    operation MResetZ(q : Qubit) : Result;",
    "\x7d"]

def diagnostics : String := page
  ["/// Assertions and test markers.",
    "namespace Std.Diagnostics \x7b",
    "    /// Marks a callable taking no arguments as a test for the named backend:",
    "    /// `@Std.Diagnostics.Test(\"Simulator\")`.",
    "    newtype Test = String;",
    "",
    "    /// Fails with `message` unless `condition` holds.",
    "    function Fact(condition : Bool, message : String) : Unit;",
    "",
    "    /// Fails with `message` unless both integers are equal.",
    "    function AssertEqual(expected : Int, actual : Int, message : String) : Unit;",
    "",
    "    /// Fails unless the qubit is in the zero state.",
    "    operation AssertZero(q : Std.Intrinsic.Qubit) : Unit;",
    "",
    "    /// Emits a message from the running program.",
    "    function Message(text : String) : Unit;",
    "\x7d"]

def canon : String := page
  ["/// Common building blocks on top of the intrinsic operations.",
    "namespace Std.Canon \x7b",
    "    /// Applies `H` to each qubit of the register.",
    "    operation ApplyHToEach(register : Std.Intrinsic.Qubit[]) : Unit;",
    "    adjoint ApplyHToEach;",
    "",
    "    /// Applies `X` to each qubit of the register.",
    "    operation ApplyXToEach(register : Std.Intrinsic.Qubit[]) : Unit;",
    "    adjoint ApplyXToEach;",
    "",
    "    /// First item of a pair.",
    "    function Fst(pair : (Int, Int)) : Int;",
    "",
    "    /// Second item of a pair.",
    "    function Snd(pair : (Int, Int)) : Int;",
    "\x7d"]

def arrays : String := page
  ["/// Functions over arrays.",
    "namespace Std.Arrays \x7b",
    "    /// Returns the first item.",
    "    function Head(xs : Int[]) : Int;",
    "",
    "    /// Returns the array in reverse order.",
    "    function Reversed(xs : Int[]) : Int[];",
    "",
    "    /// Returns the sum of all items.",
    "    function Sum(xs : Int[]) : Int;",
    "",
    "    /// True when the array has no items.",
    "    function IsEmpty(xs : Int[]) : Bool;",
    "",
    "    /// The integers from `start` up to and including `end`.",
    "    function RangeInclusive(start : Int, end : Int) : Int[];",
    "\x7d"]

/-- The header texts by origin, in the order in which they are listed. -/
def sources : List (Origin × String) :=
  [(.reference "std/core.vl", core),
    (.reference "std/intrinsic.vl", intrinsic),
    (.reference "std/diagnostics.vl", diagnostics),
    (.reference "std/canon.vl", canon),
    (.reference "std/arrays.vl", arrays)]

/-- The namespaces the headers declare, in the order of their texts. -/
def spaces : List String :=
  ["Std.Core", "Std.Intrinsic", "Std.Diagnostics", "Std.Canon", "Std.Arrays"]

def library : Library :=
  sources.foldl (fun library (origin, text) => library.insertText origin text)
    .empty

end Exemplar.Headers
