import ModelServer.OrderedMap
import ModelServer.PathEscape
import ModelServer.RequestValidation
import ModelServer.RestRequest
import ModelServer.TensorByteCounts
import Mathlib.Data.List.Lex

namespace ModelServer.ModelConfigNode

open RestRequest (Node)
open RequestValidation (Mode ANONYMOUS_INPUT_NAME)
open TensorByteCounts (Type_t)

section Parameters

/-- The order of the keys of a map. -/
scoped instance byteOrder : LinearOrder Byte where
  le_refl := UInt8.le_refl
  le_trans _ _ _ := UInt8.le_trans
  le_antisymm _ _ := UInt8.le_antisymm
  le_total := UInt8.le_total
  lt_iff_le_not_ge _ _ := by rw [UInt8.le_iff_toNat_le, UInt8.le_iff_toNat_le, UInt8.lt_iff_toNat_lt]; omega
  toDecidableLE := inferInstance
  toDecidableEq := inferInstance
  toDecidableLT := inferInstance

structure ShapeInfo where
  shapeMode : Mode := .FIXED
  shape : Shape := []
deriving DecidableEq

/-- The texts of two layouts. -/
structure LayoutConfiguration where
  tensor : Str := []
  model : Str := []
deriving DecidableEq

/-- `float_vec_or_value_t`, of the patterns of `float`. -/
inductive FloatVecOrValue
  | vector (values : List (BitVec 32))
  | value (value : BitVec 32)
deriving DecidableEq

/-- `ov::preprocess::ColorFormat`. -/
inductive ColorFormat
  | RGB
  | BGR
  | GRAY
  | NV12_SINGLE_PLANE
  | NV12_TWO_PLANES
  | I420_SINGLE_PLANE
  | I420_THREE_PLANES
deriving DecidableEq

structure ColorFormatConfiguration where
  targetColorFormat : ColorFormat
  sourceColorFormat : ColorFormat
deriving DecidableEq

structure PrecisionConfiguration where
  targetPrecision : Type_t
  sourcePrecision : Type_t
deriving DecidableEq

/-- A value of an `ov::AnyMap`; a `double` is the number it stands for, so that equal ones are the same. -/
inductive Property
  | text (s : Str)
  | int64 (n : Int)
  | double (units : Int)
  | bool (b : Bool)
deriving DecidableEq

/-- A value of `plugin_config_t`: a property, or the properties of devices. -/
inductive PluginValue
  | property (p : Property)
  | devices (devicesProperties : OrderedMap Str (OrderedMap Str Property))
deriving DecidableEq

structure ModelConfig where
  name : Str := []
  basePath : Str := []
  rootDirectoryPath : Str := []
  targetDevice : Str := []
  batchingMode : Mode := .FIXED
  batchSize : Option Dimension := none
  nireq : BitVec 32 := 0
  isAllowCacheTrue : Bool := false
  version : BitVec 64 := 0
  pluginConfig : OrderedMap Str PluginValue := .empty
  layout : LayoutConfiguration := {}
  shapes : OrderedMap Str ShapeInfo := .empty
  layouts : OrderedMap Str LayoutConfiguration := .empty
  customLoaderOptionsConfigMap : OrderedMap Str Str := .empty
  customLoaderOptionsStr : Str := []
  meanValues : Option FloatVecOrValue := none
  scaleValues : Option FloatVecOrValue := none
  colorFormat : Option ColorFormatConfiguration := none
  precision : Option PrecisionConfiguration := none
deriving DecidableEq

/-- Why a node makes no configuration. -/
inductive Failure
  | INTERNAL_ERROR
  | LAYOUT_WRONG_FORMAT
  | FLOAT_WRONG_FORMAT
  | COLOR_FORMAT_WRONG_FORMAT
  | PRECISION_WRONG_FORMAT
  | PLUGIN_CONFIG_WRONG_FORMAT
  /-- A `std::invalid_argument` leaves `parseNode`. -/
  | invalidArgument
  /-- A member that RapidJSON asserts to be of another type. -/
  | mistyped
deriving DecidableEq

/-- What is called of the standard library, of RapidJSON and of the file system. -/
structure Library where
  /-- `std::stof`: the number, and how many characters it takes; nothing where it throws. -/
  stof : Str → Option (BitVec 32 × Nat)
  /-- `std::to_string` of a `double`. -/
  toString : BitVec 64 → Str
  document : Str → Option Node
  /-- What a `Writer` makes of a value. -/
  accept : Node → Str
  isFullPath : Str → Bool

end Parameters

section Texts

def eraseSpaces (str : Str) : Str := str.filter fun c => !isspace c

def toupper (str : Str) : Str := str.map fun c => if 97 ≤ c ∧ c ≤ 122 then c - 32 else c

/-- The tokens that `std::getline` reads; there is none behind a delimiter at the end. -/
def tokenize (str : Str) (delimiter : Byte) : List Str :=
  let tokens := str.splitOn delimiter
  if tokens.getLast? = some [] then tokens.dropLast else tokens

/-- `find_first_not_of` finds something. -/
def hasOther (str : Str) (allowed : String) : Bool := str.any fun c => c ∉ bytes allowed

/-- `std::stoi`; nothing where it throws. -/
def stoi (str : Str) : Option Int :=
  (Model.stoll (str.map fun c => Char.ofNat c.toNat)).filter fun n => -2 ^ 31 ≤ n ∧ n < 2 ^ 31

/-- `Dimension(minimum, maximum)`; nothing where it throws. -/
def dimension? (minimum maximum : Int) : Option Dimension :=
  if h : minimum = -1 ∧ maximum = -1 ∨ 0 ≤ minimum ∧ minimum ≤ maximum then some ⟨minimum, maximum, h⟩ else none

/-- `Dimension::fromString`; nothing for `DIM_WRONG_FORMAT`. -/
def dimensionFromString (str : Str) : Option Dimension :=
  let strCopy := eraseSpaces str
  if char ':' ∈ strCopy then
    if hasOther strCopy "0123456789:" then none
    else if strCopy.count (char ':') ≠ 1 then none
    else
      match tokenize strCopy (char ':') with
      | [first, second] => do
        let dimNumberMin ← stoi first
        let dimNumberMax ← stoi second
        if dimNumberMin > 0 ∧ dimNumberMax > 0 then dimension? dimNumberMin dimNumberMax else none
      | _ => none
  else if strCopy.count (char '-') > 1 then none
  else if strCopy.count (char '-') = 1 ∧ strCopy.head? ≠ some (char '-') then none
  else if hasOther strCopy "0123456789-" then none
  else do
    let dimNumber ← stoi strCopy
    if dimNumber = -1 then some .any
    else if dimNumber ≥ 0 then dimension? dimNumber dimNumber
    else none

/-- A token of `Shape::fromString`. -/
def shapeDimension (token : Str) : Option Dimension :=
  if token.count (char '-') > 1 then none
  else if token.count (char '-') = 1 ∧ token.head? ≠ some (char '-') then none
  else if token.count (char ':') > 1 then none
  else if token.count (char ':') = 0 then do
    let dimValue ← stoi token
    if dimValue = -1 ∨ dimValue ≥ 0 then dimension? dimValue dimValue else none
  else
    match tokenize token (char ':') with
    | [first, second] =>
      if first = [] ∨ second = [] then none
      else do
        let dimMin ← stoi first
        let dimMax ← stoi second
        if dimMin < 0 ∨ dimMax < 0 then none
        else if dimMin ≥ dimMax then none
        else dimension? dimMin dimMax
    | _ => none

/-- `Shape::fromString`; nothing for `SHAPE_WRONG_FORMAT`. -/
def shapeFromString (strIn : Str) : Option Shape :=
  let str := eraseSpaces strIn
  if hasOther str "0123456789(),-:" then none
  else if str.count (char '(') ≠ 1 then none
  else if str.count (char ')') ≠ 1 then none
  else if str.length ≤ 2 then none
  else if str.head? ≠ some (char '(') ∨ str.getLast? ≠ some (char ')') then none
  else (tokenize str.dropLast.tail (char ',')).mapM shapeDimension

/-- `LayoutConfiguration::fromString`; nothing for `LAYOUT_WRONG_FORMAT`. -/
def layoutFromString (configurationStr : Str) : Option LayoutConfiguration :=
  let configurationCopy := toupper (eraseSpaces configurationStr)
  if hasOther configurationCopy "NCHWD.?:" then none
  else if configurationCopy.count (char ':') > 1 then none
  else if configurationCopy.count (char ':') = 0 then some ⟨configurationCopy, configurationCopy⟩
  else
    match tokenize configurationCopy (char ':') with
    | [tensor, model] => some ⟨tensor, model⟩
    | [layout] => some ⟨layout, layout⟩
    | _ => none

/-- What `fromString` of a color format and of a precision do: two names from a table, behind one another. -/
def pairFromString {α : Type} (table : List (String × α)) (configurationStr : Str) : Option (α × α) :=
  let upperConfigurationStr := toupper configurationStr
  match find upperConfigurationStr [char ':'] 0 with
  | none => none
  | some delimiterPos =>
    let named (name : Str) : Option α := (table.find? fun entry => bytes entry.1 = name).map Prod.snd
    do
      let target ← named (upperConfigurationStr.take delimiterPos)
      let source ← named (upperConfigurationStr.drop (delimiterPos + 1))
      return (target, source)

def colorFormatMap : List (String × ColorFormat) :=
  [("RGB", .RGB), ("BGR", .BGR), ("GRAY", .GRAY), ("NV12", .NV12_SINGLE_PLANE), ("NV12_2", .NV12_TWO_PLANES),
    ("I420", .I420_SINGLE_PLANE), ("I420_3", .I420_THREE_PLANES)]

def colorFormatFromString (configurationStr : Str) : Option ColorFormatConfiguration :=
  (pairFromString colorFormatMap configurationStr).map fun formats => ⟨formats.1, formats.2⟩

def precisionMap : List (String × Type_t) :=
  [("BF16", .bf16), ("FP64", .f64), ("FP32", .f32), ("FP16", .f16), ("INT64", .i64), ("INT32", .i32), ("INT16", .i16),
    ("INT8", .i8), ("INT4", .i4), ("UINT64", .u64), ("UINT32", .u32), ("UINT16", .u16), ("UINT8", .u8), ("UINT4", .u4),
    ("UINT1", .u1)]

def precisionFromString (configurationStr : Str) : Option PrecisionConfiguration :=
  (pairFromString precisionMap configurationStr).map fun precisions => ⟨precisions.1, precisions.2⟩

end Texts

section Members

variable (library : Library)

/-- `ovms::stof`. -/
def stof (str : Str) : Option (BitVec 32) :=
  if str = [] then none
  else
    match library.stof str with
    | some (val, idx) => if idx ≠ str.length then none else if RestRequest.binary32.finite val.toNat then some val else none
    | none => none

def parseFloatArrayOrValue (str : Str) (values : Option FloatVecOrValue) : Except Failure (Option FloatVecOrValue) :=
  if str = [] then .ok values
  else
    let upperCaseCommand := eraseSpaces (toupper str)
    let parsed :=
      if upperCaseCommand.head? = some (char '[') ∧ upperCaseCommand.getLast? = some (char ']') ∨
          upperCaseCommand.head? = some (char '(') ∧ upperCaseCommand.getLast? = some (char ')') then
        ((tokenize upperCaseCommand.dropLast.tail (char ',')).mapM (stof library)).map .vector
      else (stof library upperCaseCommand).map .value
    match parsed with
    | some parsed => .ok (some parsed)
    | none => .error .FLOAT_WRONG_FORMAT

/-- `GetString`. -/
def getString (node : Node) : Except Failure Str :=
  match node.string? with
  | some s => .ok s
  | none => .error .mistyped

/-- `GetUint64`. -/
def getUint64 : Node → Except Failure Nat
  | .number (.integer n _) => if 0 ≤ n then .ok n.toNat else .error .mistyped
  | _ => .error .mistyped

/-- `setBasePath`. -/
def setBasePath (basePath : Str) (config : ModelConfig) : Except Failure ModelConfig :=
  if basePath = [] then .ok { config with basePath := config.rootDirectoryPath }
  else if ¬FileSystem.isLocalFilesystem basePath then .ok { config with basePath := basePath }
  else if library.isFullPath basePath then .ok { config with basePath := basePath }
  else if config.rootDirectoryPath = [] then .error .INTERNAL_ERROR
  else .ok { config with basePath := config.rootDirectoryPath ++ basePath }

def extractBatchingParams (configBatchSize : Str) : Mode × Option Dimension :=
  if configBatchSize = bytes "auto" then (.AUTO, none)
  else if configBatchSize = [] then (.FIXED, none)
  else (.FIXED, dimensionFromString configBatchSize)

/-- Both `setBatchingParams`. -/
def setBatchingParams (node : Node) (config : ModelConfig) : Except Failure ModelConfig :=
  match node.string? with
  | some configBatchSize =>
    let (batchingMode, batchSize) := extractBatchingParams configBatchSize
    .ok { config with batchingMode := batchingMode, batchSize := batchSize }
  | none => do
    let configBatchSize := Int.bmod (← getUint64 node) (2 ^ 64)
    match dimension? configBatchSize configBatchSize with
    | some dimension => return { config with batchingMode := .FIXED, batchSize := some dimension }
    | none => throw .invalidArgument

/-- `parseShape`; nothing where the text is no shape. -/
def parseShape (str : Str) : Option ShapeInfo :=
  if str = bytes "auto" then some { shapeMode := .AUTO }
  else (shapeFromString str).map fun shape => { shapeMode := .FIXED, shape := shape }

/-- A shape by its dimensions. -/
def parseShapeArray : List Node → Option Shape
  | [] => some []
  | .number (.integer n _) :: dims =>
    if 0 ≤ n ∧ n < 2 ^ 63 then do
      return (← dimension? n n) :: (← parseShapeArray dims)
    else none
  | _ :: _ => none

/-- A shape of the map of shapes; nothing where it is not valid. -/
def shapeInfo? : Node → Except Failure (Option ShapeInfo)
  | .array dims => .ok ((parseShapeArray dims).map fun shape => { shape := shape })
  | node => do
    return parseShape (← getString node)

/-- A member of the map of shapes. -/
def addShape (config : ModelConfig) (member : Str × Node) : Except Failure ModelConfig := do
  match ← shapeInfo? member.2 with
  | some shapeInfo =>
    if cStr member.1 = ANONYMOUS_INPUT_NAME then return config
    else return { config with shapes := config.shapes.assign (cStr member.1) shapeInfo }
  | none => return config

def parseShapes (node : Node) (config : ModelConfig) : Except Failure ModelConfig :=
  match node with
  | .string s =>
    match parseShape (cStr s) with
    | some shapeInfo => .ok { config with shapes := config.shapes.assign ANONYMOUS_INPUT_NAME shapeInfo }
    | none => .ok config
  | .object members => members.foldlM addShape config
  | _ => .error .mistyped

/-- `parseLayoutParameter` of a node. -/
def parseLayouts (node : Node) (config : ModelConfig) : Except Failure ModelConfig :=
  match node with
  | .object members => do
    let layouts ← members.foldlM (fun layouts member =>
      match member.2.string?.bind layoutFromString with
      | some layout => .ok (layouts.assign (cStr member.1) layout)
      | none => .error .LAYOUT_WRONG_FORMAT) OrderedMap.empty
    return { config with layouts := layouts, layout := {} }
  | _ => .error .LAYOUT_WRONG_FORMAT

/-- `parseLayoutParameter`. -/
def parseLayoutParameter (node : Node) (config : ModelConfig) : Except Failure ModelConfig :=
  match node.string? with
  | none => parseLayouts node config
  | some command =>
    let config := { config with layouts := .empty, layout := {} }
    let upperCaseCommand := eraseSpaces (toupper command)
    if command = [] then .ok config
    else if upperCaseCommand.head? ≠ some 0x7B then
      match layoutFromString upperCaseCommand with
      | some layout => .ok { config with layout := layout }
      | none => .error .LAYOUT_WRONG_FORMAT
    else
      match library.document command with
      | some node => parseLayouts node config
      | none => .error .LAYOUT_WRONG_FORMAT

def parseMean (node : Node) (config : ModelConfig) : Except Failure ModelConfig := do
  return { config with meanValues := ← parseFloatArrayOrValue library (← getString node) config.meanValues }

def parseScale (node : Node) (config : ModelConfig) : Except Failure ModelConfig := do
  return { config with scaleValues := ← parseFloatArrayOrValue library (← getString node) config.scaleValues }

def parseColorFormat (node : Node) (config : ModelConfig) : Except Failure ModelConfig := do
  let command ← getString node
  if command = [] then return config
  match colorFormatFromString command with
  | some colorFormat => return { config with colorFormat := some colorFormat }
  | none => throw .COLOR_FORMAT_WRONG_FORMAT

def parsePrecision (node : Node) (config : ModelConfig) : Except Failure ModelConfig := do
  let command ← getString node
  if command = [] then return config
  match precisionFromString command with
  | some precision => return { config with precision := some precision }
  | none => throw .PRECISION_WRONG_FORMAT

/-- The value of a property, of what `validType` lets through; one that has to be a text is written as one. -/
def property? (stringOnly : Bool) : Node → Option Property
  -- `CACHE_DIR` too, of which the generic path is the path itself
  | .string s => some (.text (cStr s))
  | .number (.integer n _) =>
    if n < 2 ^ 63 then some (if stringOnly then .text (bytes (ToString.toString n)) else .int64 n) else none
  | .number (.double bits _) =>
    some (if stringOnly then .text (library.toString bits) else .double (RestRequest.binary64.value bits.toNat))
  | .bool b => some (if stringOnly then .text (bytes (if b then "true" else "false")) else .bool b)
  | _ => none

def isStringOnlyPluginKey (key : Str) : Bool := key = bytes "NUM_STREAMS"

/-- `DEVICE_PROPERTIES`. -/
def deviceProperties (devicesProperties : OrderedMap Str (OrderedMap Str Property)) (device : Str × Node) :
    Except Failure (OrderedMap Str (OrderedMap Str Property)) :=
  match device.2 with
  | .object members => do
    let properties ← members.foldlM (fun properties member =>
      match property? library (isStringOnlyPluginKey (cStr member.1)) member.2 with
      | some property => .ok (properties.assign (cStr member.1) property)
      | none => .error .PLUGIN_CONFIG_WRONG_FORMAT) OrderedMap.empty
    return devicesProperties.assign (cStr device.1) properties
  | _ => .error .PLUGIN_CONFIG_WRONG_FORMAT

/-- The key under which a property is kept, and its value; a deprecated key is replaced. -/
def pluginProperty? (topKey : Str) (value : Node) : Option (Str × Property) :=
  let throughputStreams : Bool := topKey = bytes "CPU_THROUGHPUT_STREAMS" || topKey = bytes "GPU_THROUGHPUT_STREAMS"
  match value with
  | .string s =>
    if topKey = bytes "CPU_THROUGHPUT_STREAMS" ∧ cStr s = bytes "CPU_THROUGHPUT_AUTO" ∨
        topKey = bytes "GPU_THROUGHPUT_STREAMS" ∧ cStr s = bytes "GPU_THROUGHPUT_AUTO" then
      some (bytes "PERFORMANCE_HINT", .text (bytes "THROUGHPUT"))
    else if throughputStreams then some (bytes "NUM_STREAMS", .text (cStr s))
    else if topKey = bytes "CPU_THREADS_NUM" then some (bytes "INFERENCE_NUM_THREADS", .text (cStr s))
    else some (topKey, .text (cStr s))
  | .number n =>
    if throughputStreams then (property? library true (.number n)).map fun property => (bytes "NUM_STREAMS", property)
    else (property? library (isStringOnlyPluginKey topKey) (.number n)).map fun property => (topKey, property)
  | value => (property? library (isStringOnlyPluginKey topKey) value).map fun property => (topKey, property)

/-- A member of the plugin configuration. -/
def addPluginValue (pluginConfig : OrderedMap Str PluginValue) (member : Str × Node) : Except Failure (OrderedMap Str PluginValue) :=
  let topKey := cStr member.1
  match member.2 with
  | .object devices =>
    if topKey = bytes "DEVICE_PROPERTIES" then do
      return pluginConfig.assign topKey (.devices (← devices.foldlM (deviceProperties library) OrderedMap.empty))
    else .error .PLUGIN_CONFIG_WRONG_FORMAT
  | value =>
    match pluginProperty? library topKey value with
    | some (key, property) => .ok (pluginConfig.assign key (.property property))
    | none => .error .PLUGIN_CONFIG_WRONG_FORMAT

def parsePluginConfig (node : Node) (config : ModelConfig) : Except Failure ModelConfig :=
  match node with
  | .object members => do
    return { config with pluginConfig := ← members.foldlM (addPluginValue library) config.pluginConfig }
  | _ => .error .PLUGIN_CONFIG_WRONG_FORMAT

/-- The options are added up to one that is no string; whether there is none such. -/
def addCustomLoaderOptions : List (Str × Node) → OrderedMap Str Str → OrderedMap Str Str × Bool
  | [], options => (options, true)
  | (name, value) :: members, options =>
    match value.string? with
    | some value => addCustomLoaderOptions members (options.assign (cStr name) value)
    | none => (options, false)

def parseCustomLoaderOptionsConfig (node : Node) (config : ModelConfig) : ModelConfig :=
  match node with
  | .object members =>
    let (options, allStrings) := addCustomLoaderOptions members config.customLoaderOptionsConfigMap
    let config := { config with customLoaderOptionsConfigMap := options }
    if allStrings then { config with customLoaderOptionsStr := library.accept node } else config
  | _ => config

/-- A batch size is not kept beside a shape. -/
def ignoreBatchSize (config : ModelConfig) : ModelConfig :=
  let batchSizeSet : Bool := config.batchingMode ≠ .FIXED || config.batchSize.isSome
  let shapeSet : Bool := config.shapes.entries.length > 0
  if batchSizeSet && shapeSet then { config with batchingMode := .FIXED, batchSize := none } else config

/-- A member that may be missing. -/
def withMember (members : List (Str × Node)) (name : String) (parse : Node → ModelConfig → Except Failure ModelConfig)
    (config : ModelConfig) : Except Failure ModelConfig :=
  match members.lookup (bytes name) with
  | some node => parse node config
  | none => .ok config

def parseNode (members : List (Str × Node)) (config : ModelConfig) : Except Failure ModelConfig := do
  let name ← match members.lookup (bytes "name") with
    | some name => getString name
    | none => throw .mistyped
  let basePath ← match members.lookup (bytes "base_path") with
    | some basePath => getString basePath
    | none => pure []
  let config ← setBasePath library basePath { config with name := name }
  let config ← withMember members "batch_size" setBatchingParams config
  let config ← withMember members "target_device" (fun node config => do
    return { config with targetDevice := ← getString node }) config
  let config ← withMember members "version" (fun node config => do
    return { config with version := BitVec.ofNat 64 (← getUint64 node) }) config
  let config ← withMember members "nireq" (fun node config => do
    return { config with nireq := BitVec.ofNat 32 (← getUint64 node) }) config
  let config ← withMember members "shape" parseShapes config
  let config ← withMember members "layout" (parseLayoutParameter library) config
  let config ← withMember members "mean" (parseMean library) config
  let config ← withMember members "scale" (parseScale library) config
  let config ← withMember members "color_format" parseColorFormat config
  let config ← withMember members "precision" parsePrecision config
  let config ← withMember members "plugin_config" (parsePluginConfig library) config
  let config := ignoreBatchSize config
  let config ← withMember members "allow_cache" (fun node config =>
    match node.bool? with
    | some allowCache => .ok { config with isAllowCacheTrue := allowCache }
    | none => .error .mistyped) config
  withMember members "custom_loader_options" (fun node config => .ok (parseCustomLoaderOptionsConfig library node config)) config

end Members

end ModelServer.ModelConfigNode
