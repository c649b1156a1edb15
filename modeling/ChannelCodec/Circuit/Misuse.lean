import ChannelCodec.Diagnostic
import ChannelCodec.HwType.Text

/-! Mistakes in the use of circuits: operands of the wrong type, places outside of what they
lie in, names that name nothing. They are errors of a caller, not of its input, and so stand
apart from diagnostics. -/
namespace ChannelCodec

inductive Misuse where
  | duplicatePort (name : String)
  | unknownInput (name : String)
  | unknownOutput (name : String)
  | unknownValue (index : Nat)
  | unknownOperation (index : Nat)
  | notARegion
  | constantWidth (type : HwType)
  | bitcastWidths (source target : HwType)
  | notSignless (operation : String) (type : HwType)
  | extractRange (low high width : Nat)
  | addTypes
  | compareTypes
  | indexWidth (size : Nat)
  | sliceOfNonArray
  | elementOfNonArray
  | concatOfNonArray
  | sliceSize (size total : Nat)
  | createNothing
  | concatNothing
  | createTypes
  | concatTypes
  | unknownField (name : String)
  | createNonStruct (type : HwType)
  | createArity
  | createFieldType (name : String)
  | instanceArity (callee : String)
  | instancePortType (callee port : String)
  | clockType
  | conditionType
  | assertionType
  | outputArity (circuit : String) (count : Nat)
  | outputType (port : String)
  | addWidths
  | compareWidths
  | operandCount
  | rootOfNonArray (type : HwType)
  | downcastTarget (type : HwType)
  | packNothing
  | partRange (low high size : Nat)
  | checkOfNonBits (type : HwType)
  | insertPastEnd (start stop size : Nat)
  | insertOverlap (start stop otherStart otherStop : Nat)
  | listOfNonArray
  | fieldCount
deriving DecidableEq, Repr

def Misuse.message : Misuse → String
  | .duplicatePort name => s!"Duplicate port `{name}'"
  | .unknownInput name => s!"No input port named `{name}'"
  | .unknownOutput name => s!"No output named `{name}'"
  | .unknownValue index => s!"No value with index {index}"
  | .unknownOperation index => s!"No operation with index {index}"
  | .notARegion => "Operation does not have a region"
  | .constantWidth type => s!"Constant width does not match `{type}'"
  | .bitcastWidths source target => s!"Cannot bitcast `{source}' to `{target}'"
  | .notSignless operation type => s!"{operation}: expected a signless integer, got `{type}'"
  | .extractRange low high width => s!"Extracting bits [{low}, {high}) out of an i{width}"
  | .addTypes => "add: operand types differ"
  | .compareTypes => "icmp: operand types differ"
  | .indexWidth size => s!"Index into an array of {size} elements has the wrong width"
  | .sliceOfNonArray => "array_slice of a non-array"
  | .elementOfNonArray => "array_get of a non-array"
  | .concatOfNonArray => "array_concat of a non-array"
  | .sliceSize size total => s!"Slice of {size} out of {total} elements"
  | .createNothing => "Cannot create an empty array"
  | .concatNothing => "Cannot concatenate zero arrays"
  | .createTypes => "array_create: element types differ"
  | .concatTypes => "array_concat: element types differ"
  | .unknownField name => s!"No struct field named `{name}'"
  | .createNonStruct type => s!"struct_create of non-struct `{type}'"
  | .createArity => "struct_create: wrong arity"
  | .createFieldType name => s!"struct_create: wrong type for field `{name}'"
  | .instanceArity callee => s!"Instance of `{callee}': wrong number of inputs"
  | .instancePortType callee port => s!"Instance of `{callee}': wrong type for port `{port}'"
  | .clockType => "Clock must be an i1"
  | .conditionType => "Condition must be an i1"
  | .assertionType => "Assertion must be an i1"
  | .outputArity circuit count => s!"Module `{circuit}' has {count} outputs"
  | .outputType port => s!"Wrong type for output `{port}'"
  | .addWidths => "Adding values of different widths"
  | .compareWidths => "Comparing values of different widths"
  | .operandCount => "Operation has the wrong number of operands"
  | .rootOfNonArray type => s!"Slices must be arrays, got `{type}'"
  | .downcastTarget type => s!"Cannot downcast to `{type}'"
  | .packNothing => "Cannot concatenate nothing"
  | .partRange low high size => s!"Slicing [{low}, {high}) out of {size} elements"
  | .checkOfNonBits type => s!"Can only compare integers and bit arrays, not `{type}'"
  | .insertPastEnd start stop size =>
    s!"Inserting [{start}, {stop}) past the end of a {size} bit message"
  | .insertOverlap start stop otherStart otherStop =>
    s!"Inserting [{start}, {stop}) overlaps [{otherStart}, {otherStop})"
  | .listOfNonArray => "List field holds a non-array"
  | .fieldCount => "Schema and type have different numbers of fields"

inductive Failure where
  | misuse (mistake : Misuse)
  | report (diagnostic : Diagnostic)
deriving DecidableEq, Repr

end ChannelCodec
