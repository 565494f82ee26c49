/-!
# Causes of failure

A failure has one cause. The cause fixes the kind that the failure is shown under and the sentence
that describes it; both are functions below, so no other module holds a wording. Where a cause
repeats outside text (a message of the document layer, a name), it carries that text.
-/

namespace SeismicTree

inductive FailureKind where
  | io | logic | illegalOperation | notImplemented | settings | duplicateElement
  | undefinedElement | domain | logicTree | parse | markupValidity | stream | valueMismatch
  deriving DecidableEq, Repr

/-- The name of a kind as users see it. -/
def FailureKind.title : FailureKind → String
  | .io => "tremor::IOError"
  | .logic => "tremor::LogicError"
  | .illegalOperation => "tremor::IllegalOperation"
  | .notImplemented => "tremor::NotImplemented"
  | .settings => "tremor::SettingsError"
  | .duplicateElement => "tremor::DuplicateElementError"
  | .undefinedElement => "tremor::UndefinedElement"
  | .domain => "tremor::DomainError"
  | .logicTree => "tremor::lt::LogicTreeError"
  | .parse => "tremor::xml::ParseError"
  | .markupValidity => "tremor::xml::ValidityError"
  | .stream => "tremor::xml::StreamError"
  | .valueMismatch => "tremor::ValueMismatch"

/-- Files that cannot be read or written. A file may be absent, or be there and still not be
readable, in which case the document layer says why. -/
inductive FileFault where
  | missingInput | missingConfiguration | unopenedReport | unwritten
  | absent (path : String)
  | unreadable (message : String)
  deriving DecidableEq, Repr

def FileFault.message : FileFault → String
  | .missingInput => "Input file doesn't exist."
  | .missingConfiguration => "The configuration file does not exist."
  | .unopenedReport => "Cannot open the output file for report."
  | .unwritten => "FILE error on write"
  | .absent path => "failed to load external entity \"" ++ path ++ "\"\n"
  | .unreadable message => message

/-- The number and the text of the system's own error, where one is known. -/
def FileFault.system? : FileFault → Option (Nat × String)
  | .missingInput | .missingConfiguration => none
  | .unopenedReport | .absent _ => some (2, "No such file or directory")
  | .unreadable _ => some (5, "Input/output error")
  | .unwritten => some (1, "Operation not permitted")

/-- Uses that no input should lead to. -/
inductive Misuse where
  | emptySourceId | inapplicableUncertainty | unknownSourceType | unknownFilter
  deriving DecidableEq, Repr

def Misuse.message : Misuse → String
  | .emptySourceId => "The source identifier cannot be empty"
  | .inapplicableUncertainty => "The uncertainty does not apply to sources"
  | .unknownSourceType => "Unknown source type for the filter"
  | .unknownFilter => "Unknown filter"

inductive SettingFault where
  | samples | seed | limit | verbosity
  deriving DecidableEq, Repr

def SettingFault.message : SettingFault → String
  | .samples => "The number of samples cannot be negative."
  | .seed => "The seed for PRNG cannot be negative."
  | .limit => "The limit on paths cannot be negative."
  | .verbosity => "Log verbosity must be between 0 and 7"

/-- Model values outside of their domain. -/
inductive DomainFault where
  | longitude | latitude | pointDepth | emptyLine | surfaceCount
  | coordinates | negativeDepth | positionCount | polygonSize | meshSpacing | edgeElements
  | cornerDepth
  | depthOrder | dip | traceSize | edgeCount | noLocation | areaPolygon | discretization
  | binWidth | magnitudeRange | bValue | noRates | negativeRates
  deriving DecidableEq, Repr

def DomainFault.message : DomainFault → String
  | .longitude => "Longitude is outside of [-180, 180]"
  | .latitude => "Latitude is outside of [-90, 90]"
  | .pointDepth => "The depth must be less than the Earth radius"
  | .emptyLine => "A line requires at least one point"
  | .surfaceCount => "A multi-surface requires two or more surfaces"
  | .coordinates => "Incomplete coordinates in the position list"
  | .negativeDepth => "The depth cannot be negative"
  | .positionCount => "Expected a single point position"
  | .polygonSize => "A polygon requires three or more points"
  | .meshSpacing => "The mesh spacing must be positive"
  | .edgeElements => "The fault requires top and bottom edges"
  | .cornerDepth => "The corner depth cannot be negative"
  | .depthOrder => "The seismogenic depths must be [upper < lower]"
  | .dip => "The dip must be in (0, 90]"
  | .traceSize => "The fault trace requires two or more points"
  | .edgeCount => "The fault requires the top and bottom edges"
  | .noLocation => "The source location is missing"
  | .areaPolygon => "The area polygon requires three or more points"
  | .discretization => "The area discretization must be positive"
  | .binWidth => "The bin width must be positive"
  | .magnitudeRange => "The magnitude range must be [min < max]"
  | .bValue => "The b value must be positive"
  | .noRates => "The occurrence rates are missing"
  | .negativeRates => "The occurrence rates cannot be negative"

inductive MarkupFault where
  | notInteger | notNumber | notFlag | missingElement | missingAttribute
  | surfaceKind | noSurface | configurationRoot | noLogicTree
  deriving DecidableEq, Repr

def MarkupFault.message : MarkupFault → String
  | .notInteger => "Failed to interpret value to int"
  | .notNumber => "Failed to interpret value to double"
  | .notFlag => "Failed to interpret value to bool"
  | .missingElement => "Missing element"
  | .missingAttribute => "Missing attribute"
  | .surfaceKind => "Surface geometry type not recognised"
  | .noSurface => "Surface geometry is missing"
  | .configurationRoot => "The configuration root must be 'tremor'"
  | .noLogicTree => "The logic tree file is not specified"

/-- Faults of a logic tree description. -/
inductive TreeFault where
  | noLogicTree | unexpectedNode | noBranchSets | rootApplies | noOpenBranches | noSuchLeaf
  | noBranchSetId | repeatedBranchSetId | unknownType | collapsedFlag | sourceType
  | noBranchId | repeatedBranchId | incompleteBranch | numberExpected | weightRange
  | emptyBranchSet | weightSum
  | pairExpected | simpleFault | complexFault | planarFault | incrementalMfd
  | noSurface | surfaceKind
  | stated (text : String)
  deriving DecidableEq, Repr

def TreeFault.text : TreeFault → String
  | .noLogicTree => "missing 'logicTree' node"
  | .unexpectedNode => "unexpected node in the logic tree"
  | .noBranchSets => "the logic tree has no branch sets"
  | .rootApplies => "the root branch set cannot apply to branches"
  | .noOpenBranches => "no open branches to apply to"
  | .noSuchLeaf => "applyToBranches refers to a branch that is undefined or not a leaf"
  | .noBranchSetId => "missing branchSetID"
  | .repeatedBranchSetId => "branchSetID is not unique"
  | .unknownType => "unknown uncertainty type"
  | .collapsedFlag => "expected boolean 'collapsed' value"
  | .sourceType => "unknown source type"
  | .noBranchId => "missing branchID"
  | .repeatedBranchId => "branchID is not unique"
  | .incompleteBranch => "expected uncertaintyModel and uncertaintyWeight"
  | .numberExpected => "expected single float value"
  | .weightRange => "weight must be in (0, 1]"
  | .emptyBranchSet => "branch set is empty"
  | .weightSum => "branchset weights don't sum up to 1.0"
  | .pairExpected => "expected a pair of floats separated by space"
  | .simpleFault => "'simpleFaultGeometry' node is not valid"
  | .complexFault => "'complexFaultGeometry' node is not valid"
  | .planarFault => "'planarFaultGeometry' node is not valid"
  | .incrementalMfd => "'incrementalMFD' node is not valid"
  | .noSurface => "Surface geometry is missing"
  | .surfaceKind => "Surface geometry type not recognised"
  | .stated text => text

/-- Calls that a written document refuses. -/
inductive StreamFault where
  | secondRoot | emptyElementName | emptyAttributeName | inactive
  | lateAttribute | lateText | lateElement
  deriving DecidableEq, Repr

def StreamFault.message : StreamFault → String
  | .secondRoot => "The XML stream document already has a root."
  | .emptyElementName => "The element name can't be empty."
  | .emptyAttributeName => "Attribute name can't be empty."
  | .inactive => "The element is inactive."
  | .lateAttribute => "Too late for attributes."
  | .lateText => "Too late to put text."
  | .lateElement => "Too late to add elements."

inductive Cause where
  | file (fault : FileFault)
  | misuse (fault : Misuse)
  | unsupported (operation owner : String)
  | noMfd
  | collapsedMultiSurface
  | setting (fault : SettingFault)
  | duplicate
  | undefined
  | domain (fault : DomainFault)
  | logicTree (fault : TreeFault) (path : String) (line : Option Nat)
  | unparsed (message : String)
  | emptyDocument
  | markup (fault : MarkupFault)
  | stream (fault : StreamFault)
  | valueMismatch
  deriving DecidableEq, Repr

def Cause.kind : Cause → FailureKind
  | .file _ => .io
  | .misuse _ => .logic
  | .unsupported .. | .noMfd => .illegalOperation
  | .collapsedMultiSurface => .notImplemented
  | .setting _ => .settings
  | .duplicate => .duplicateElement
  | .undefined => .undefinedElement
  | .domain _ => .domain
  | .logicTree .. => .logicTree
  | .unparsed _ | .emptyDocument => .parse
  | .markup _ => .markupValidity
  | .stream _ => .stream
  | .valueMismatch => .valueMismatch

/-- The description of a cause. A fault of a logic tree names its place; a line that is not known
is shown as a question mark. -/
def Cause.message : Cause → String
  | .file fault => fault.message
  | .misuse fault => fault.message
  | .unsupported operation owner =>
    "Modification '" ++ operation ++ "' is not supported by " ++ owner
  | .noMfd => "The source has no MFD to modify"
  | .collapsedMultiSurface => "Collapsing of multi-surface sources"
  | .setting fault => fault.message
  | .duplicate => "Duplicate Element Error"
  | .undefined => "Undefined Element Error"
  | .domain fault => fault.message
  | .logicTree fault path line =>
    "filename '" ++ path ++ "', line " ++ (line.map toString).getD "?" ++ ": " ++ fault.text
  | .unparsed message => message
  | .emptyDocument => "The XML document is empty"
  | .markup fault => fault.message
  | .stream fault => fault.message
  | .valueMismatch => "The value does not fit the uncertainty type"

end SeismicTree
