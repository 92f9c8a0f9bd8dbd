import Mathlib
import AptosCore.Package.Toml

/-!
# Parsing a package manifest

`move-package/src/source_package/manifest_parser.rs`: `parse_move_manifest_string` reads the
TOML text of a `Move.toml`, and `parse_source_manifest` reads the package, its addresses, its
build information and its dependencies off the TOML table, each section with its own checks and
errors.

An error is `anyhow`'s: its message with the contexts put around it, outermost first. The
`unwrap`s of `parse_version` and `parse_architecture` on a value that is not a string panic, and
so does the parse here. The warnings about unknown fields only log and are left out, as is the
rendering of an address parse error, which is kept as its first words. The environment the
parser reads is a parameter: `MOVE_HOME` and the custom dependency key of the package hooks.
-/

namespace AptosCore.Package

open AptosCore.Rust

/-- How a parse fails: an `anyhow` error, its contexts outermost first, or a panic. -/
inductive Failure where
  | error (messages : List String)
  | panic
  deriving DecidableEq, Repr

/-- `bail!`. -/
def bail {α : Type} (message : String) : Except Failure α := .error (.error [message])

/-- `Context::context`: an error gets one more message, outermost. -/
def context {α : Type} (message : String) : Except Failure α → Except Failure α
  | .error (.error messages) => .error (.error (message :: messages))
  | result => result

@[simp] theorem context_ok {α : Type} (message : String) (a : α) :
    context message (.ok a) = .ok a := rfl

/-- `Option::transpose` after `map`: a section that is there is parsed. -/
def parseSection {α : Type} (parse : TomlValue → Except Failure α) :
    Option TomlValue → Except Failure (Option α)
  | none => .ok none
  | some tval => some <$> parse tval

/-- The error of a section that is not a table. -/
def malformedSection {α : Type} (tval : TomlValue) : Except Failure α :=
  bail ("Malformed section in manifest " ++ String.ofList tval.render ++
    ". Expected a table, but encountered a " ++ tval.typeStr)

/-- `check_for_required_field_names`: the missing fields are named in order. -/
def checkForRequiredFieldNames (table : List (List Char × TomlValue))
    (requiredFields : List String) : Except Failure Unit :=
  let missing := requiredFields.filter fun field ↦ (BTreeMap.get field.toList table).isNone
  if missing = [] then .ok ()
  else
    bail ("Required field name" ++ (if missing.length > 1 then "s" else "") ++ " " ++
      ", ".intercalate (missing.map fun field ↦ "'" ++ field ++ "'") ++ " not found")

/-! ## Numbers and addresses -/

/-- `str::parse::<u64>`: an optional `+`, then decimal digits, below `2 ^ 64`. -/
def parseU64 (s : List Char) : Except String Nat :=
  match s with
  | [] => .error "cannot parse integer from empty string"
  | _ =>
    let digits := match s with
      | '+' :: rest => rest
      | _ => s
    if digits ≠ [] ∧ digits.all Char.isDigit then
      let n := digits.foldl (fun n c ↦ 10 * n + (c.toNat - '0'.toNat)) 0
      if n < 2 ^ 64 then .ok n else .error "number too large to fit in target type"
    else .error "invalid digit found in string"

/-- A `u64` part of a version, with the context the parser puts around its error. -/
def parseVersionPart (message : String) (part : List Char) : Except Failure Nat :=
  match parseU64 part with
  | .ok n => .ok n
  | .error inner => .error (.error [message, inner])

/-- `Version`: major, minor and bugfix. -/
abbrev Version := Nat × Nat × Nat

def parseVersion (tval : TomlValue) : Except Failure Version :=
  match tval.asStr with
  | none => .error .panic
  | some versionStr =>
    match versionStr.splitOn '.' with
    | [major, minor, bugfix] => do
      let major ← parseVersionPart "Invalid major version" major
      let minor ← parseVersionPart "Invalid minor version" minor
      let bugfix ← parseVersionPart "Invalid bugfix version" bugfix
      .ok (major, minor, bugfix)
    | _ =>
      bail ("Version is malformed. Versions must be of the form <u64>.<u64>.<u64>, but found '" ++
        String.ofList versionStr ++ "'")

/-- A hexadecimal digit, of either case. -/
def isHexDigit (c : Char) : Bool :=
  c.isDigit || ('a' ≤ c && c ≤ 'f') || ('A' ≤ c && c ≤ 'F')

/-- The value of a hexadecimal digit. -/
def hexDigitValue (c : Char) : Nat :=
  if c.isDigit then c.toNat - '0'.toNat
  else if 'a' ≤ c && c ≤ 'f' then c.toNat - 'a'.toNat + 10
  else c.toNat - 'A'.toNat + 10

/-- `AccountAddress::from_hex`: exactly 32 bytes, 64 hexadecimal digits. -/
def fromHex (hex : List Char) : Option Nat :=
  if hex.length = 64 ∧ hex.all isHexDigit then
    some (hex.foldl (fun n c ↦ 16 * n + hexDigitValue c) 0)
  else none

/-- `AccountAddress::from_hex_literal`: `0x`, then digits that are padded with zeros to 64. -/
def fromHexLiteral : List Char → Option Nat
  | '0' :: 'x' :: hex =>
    if hex.length < 64 then fromHex (List.replicate (64 - hex.length) '0' ++ hex) else fromHex hex
  | _ => none

/-- `parse_address_literal`: with `0x` a literal, without it the 64 digits of `from_hex`. -/
def parseAddressLiteral (s : List Char) : Option Nat :=
  match s with
  | '0' :: 'x' :: _ => fromHexLiteral s
  | _ => fromHex s

/-- An address entry through `parse_address_literal`, with its context. -/
def parseAddressEntry (entryStr : List Char) : Except Failure Nat :=
  match parseAddressLiteral entryStr with
  | some address => .ok address
  | none =>
    .error (.error ["Invalid address '" ++ String.ofList entryStr ++ "' encountered.",
      "Hex characters are invalid"])

/-- The error of an address entry that is not a string. -/
def invalidAddressName {α : Type} (entry : TomlValue) : Except Failure α :=
  bail ("Invalid address name " ++ String.ofList entry.render ++
    " encountered. Expected a string but found a " ++ entry.typeStr)

/-- Inserts a named address that must not be there yet. -/
def insertAddress {β : Type} (ident : List Char) (address : β)
    (addresses : List (List Char × β)) : Except Failure (List (List Char × β)) :=
  if (BTreeMap.get ident addresses).isSome then
    bail ("Duplicate address name '" ++ String.ofList ident ++ "' found.")
  else .ok (BTreeMap.insert ident address addresses)

/-- `parse_addresses`: `_` leaves a named address unassigned. -/
def parseAddresses : TomlValue → Except Failure (List (List Char × Option Nat))
  | .table table =>
    table.foldlM (fun addresses (addrName, entry) ↦
      match entry.asStr with
      | some entryStr =>
        if entryStr = "_".toList then insertAddress addrName none addresses
        else do
          let address ← parseAddressEntry entryStr
          insertAddress addrName (some address) addresses
      | none => invalidAddressName entry) []
  | tval => malformedSection tval

/-- `parse_dev_addresses`: every dev address must be assigned. -/
def parseDevAddresses : TomlValue → Except Failure (List (List Char × Nat))
  | .table table =>
    table.foldlM (fun addresses (addrName, entry) ↦
      match entry.asStr with
      | some entryStr =>
        if entryStr = "_".toList then
          bail ("Found uninstantiated named address '" ++ String.ofList addrName ++
            "'. All addresses in the 'dev-addresses' field must be instantiated.")
        else do
          let address ← parseAddressEntry entryStr
          insertAddress addrName address addresses
      | none => invalidAddressName entry) []
  | tval => malformedSection tval

/-! ## The package -/

/-- `PackageInfo`. The license is kept as `to_string` writes it. -/
structure PackageInfo where
  name : List Char
  version : Version
  authors : List (List Char)
  license : Option (List Char)
  customProperties : List (List Char × List Char)
  deriving DecidableEq, Repr

/-- The authors, each a string. -/
def parseAuthors : Option TomlValue → Except Failure (List (List Char))
  | none => .ok []
  | some (.array items) =>
    items.mapM fun tval ↦
      match tval.asStr with
      | some author => .ok author
      | none =>
        bail ("Invalid author '" ++ String.ofList tval.render ++ "' of type " ++ tval.typeStr ++
          " found. Expected a string.")
  | some _ => bail "Invalid author(s) list"

/-- The remaining fields of the package section, each a string. -/
def parseCustomProperties (table : List (List Char × TomlValue)) :
    Except Failure (List (List Char × List Char)) :=
  table.foldlM (fun properties (name, val) ↦
    match val.asStr with
    | some valStr => .ok (BTreeMap.insert name valStr properties)
    | none => bail ("Field `" ++ String.ofList name ++ "` value must be a string")) []

def parsePackageInfo : TomlValue → Except Failure PackageInfo
  | .table table => do
    checkForRequiredFieldNames table ["name", "version"]
    let some name := BTreeMap.get "name".toList table
      | bail "'name' is a required field but was not found"
    let some version := BTreeMap.get "version".toList table
      | bail "'version' is a required field but was not found"
    let some name := name.asStr | bail "Package name must be a string"
    let version ← parseVersion version
    let license := (BTreeMap.get "license".toList table).map TomlValue.render
    let authors ← parseAuthors (BTreeMap.get "authors".toList table)
    let rest := ["name", "version", "license", "authors"].foldl
      (fun rest field ↦ BTreeMap.erase field.toList rest) table
    let customProperties ← parseCustomProperties rest
    .ok ⟨name, version, authors, license, customProperties⟩
  | tval => malformedSection tval

/-- `Architecture`. -/
inductive Architecture where
  | move
  | asyncMove
  | ethereum
  deriving DecidableEq, Repr

/-- `Architecture::try_parse_from_str`, without the `evm-backend` feature. -/
def Architecture.tryParseFromStr (s : List Char) : Except Failure Architecture :=
  if s = "move".toList then .ok .move
  else if s = "async-move".toList then .ok .asyncMove
  else if s = "ethereum".toList then .ok .ethereum
  else
    bail ("Unrecognized architecture " ++ String.ofList s ++
      " -- only \"move\", \"async-move\" are supported")

def parseArchitecture (tval : TomlValue) : Except Failure Architecture :=
  match tval.asStr with
  | some s => Architecture.tryParseFromStr s
  | none => .error .panic

/-- `BuildInfo`. -/
structure BuildInfo where
  languageVersion : Option Version
  architecture : Option Architecture
  deriving DecidableEq, Repr

def parseBuildInfo : TomlValue → Except Failure BuildInfo
  | .table table => do
    let languageVersion ← parseSection parseVersion (BTreeMap.get "language_version".toList table)
    let architecture ← parseSection parseArchitecture (BTreeMap.get "arch".toList table)
    .ok ⟨languageVersion, architecture⟩
  | tval => malformedSection tval

/-! ## Dependencies -/

/-- `SubstOrRename`. -/
inductive SubstOrRename where
  | renameFrom (name : List Char)
  | assign (address : Nat)
  deriving DecidableEq, Repr

/-- `GitInfo`. -/
structure GitInfo where
  gitUrl : List Char
  gitRev : List Char
  subdir : List Char
  downloadTo : List Char
  deriving DecidableEq, Repr

/-- `CustomDepInfo`. -/
structure CustomDepInfo where
  nodeUrl : List Char
  packageAddress : List Char
  packageName : List Char
  downloadTo : List Char
  deriving DecidableEq, Repr

/-- `Dependency`; `local` is `localPath`. -/
structure Dependency where
  localPath : List Char
  subst : Option (List (List Char × SubstOrRename))
  version : Option Version
  digest : Option (List Char)
  gitInfo : Option GitInfo
  nodeInfo : Option CustomDepInfo
  deriving DecidableEq, Repr

/-- `Path::join`: an absolute path replaces the base, otherwise a separator goes between. -/
def joinPath (base path : List Char) : List Char :=
  if path.head? = some '/' then path
  else if base.getLast? = some '/' then base ++ path
  else base ++ '/' :: path

/-- `url_to_file_name`: every `/`, `:`, `.` and `@` becomes `_`. -/
def urlToFileName (url : List Char) : List Char :=
  url.map fun c ↦ if c = '/' ∨ c = ':' ∨ c = '.' ∨ c = '@' then '_' else c

def gitRepoCachePath (moveHome gitUrl revName : List Char) : List Char :=
  joinPath moveHome
    (urlToFileName gitUrl ++ '_' :: revName.flatMap fun c ↦ if c = '/' then ['_', '_'] else [c])

/-- `parse_substitution`: a string that reads as an address literal assigns it, any other string
renames. -/
def parseSubstitution : TomlValue → Except Failure (List (List Char × SubstOrRename))
  | .table table =>
    table.foldlM (fun subst (addrName, tval) ↦
      match tval with
      | .string addrOrName =>
        match fromHexLiteral addrOrName with
        | some address => .ok (BTreeMap.insert addrName (.assign address) subst)
        | none => .ok (BTreeMap.insert addrName (.renameFrom addrOrName) subst)
      | tval =>
        bail ("Malformed dependency substitution " ++ String.ofList tval.render ++
          ". Expected a string, but encountered a " ++ tval.typeStr)) []
  | tval =>
    bail ("Malformed dependency substitution " ++ String.ofList tval.render ++
      ". Expected a table, but encountered a " ++ tval.typeStr)

def parseDigest (tval : TomlValue) : Except Failure (List Char) :=
  match tval.asStr with
  | some digest => .ok digest
  | none => bail "Invalid package digest"

/-- A string field of a dependency, with the error of a value that is not one. -/
def stringField (message : String) (tval : TomlValue) : Except Failure (List Char) :=
  match tval.asStr with
  | some s => .ok s
  | none => bail message

/-- The value of the custom dependency key, when the hooks define one. -/
def customValue (customKey : Option (List Char)) (table : List (List Char × TomlValue)) :
    Option TomlValue :=
  customKey.bind fun key ↦ BTreeMap.get key table

/-- `parse_dependency`: exactly one of `local`, `git` and the custom key says where the
dependency is. -/
def parseDependency (moveHome : List Char) (customKey : Option (List Char)) (depName : List Char) :
    TomlValue → Except Failure Dependency
  | .table table => do
    let subst ← parseSection parseSubstitution (BTreeMap.get "addr_subst".toList table)
    let version ← parseSection parseVersion (BTreeMap.get "version".toList table)
    let digest ← parseSection parseDigest (BTreeMap.get "digest".toList table)
    match BTreeMap.get "local".toList table, BTreeMap.get "git".toList table,
        customValue customKey table with
    | some localValue, none, none => do
      let localStr ← stringField "Local source path not a string" localValue
      .ok ⟨localStr, subst, version, digest, none, none⟩
    | none, some git, none => do
      let some rev := BTreeMap.get "rev".toList table
        | bail "Git revision not supplied for dependency"
      let revName ← stringField "Git revision not a string" rev
      let gitUrl ← stringField "Git URL not a string" git
      let localPath := gitRepoCachePath moveHome gitUrl revName
      let subdir ← parseSection (stringField "'subdir' not a string")
        (BTreeMap.get "subdir".toList table)
      let subdir := subdir.getD []
      .ok ⟨joinPath localPath subdir, subst, version, digest,
        some ⟨gitUrl, revName, subdir, localPath⟩, none⟩
    | none, none, some custom => do
      let some address := BTreeMap.get "address".toList table
        | bail "Address not supplied for 'node' dependency"
      let address ← stringField "Node address not a string" address
      let nodeUrl ← stringField "Git URL not a string" custom
      let localPath := joinPath moveHome
        (urlToFileName nodeUrl ++ '_' :: address ++ '_' :: depName)
      .ok ⟨localPath, subst, version, digest, none, some ⟨nodeUrl, address, depName, localPath⟩⟩
    | _, _, _ =>
      bail ("must provide exactly one of " ++
        " or ".intercalate ((["local", "git"] ++ (customKey.map String.ofList).toList).map
          fun key ↦ "'" ++ key ++ "'") ++ " for dependency.")
  | tval => bail ("Malformed dependency " ++ String.ofList tval.render)

/-- `Dependencies`: a map by package name. -/
abbrev Dependencies := List (List Char × Dependency)

def parseDependencies (moveHome : List Char) (customKey : Option (List Char)) :
    TomlValue → Except Failure Dependencies
  | .table table =>
    table.foldlM (fun deps (depName, dep) ↦ do
      let dep ← parseDependency moveHome customKey depName dep
      .ok (BTreeMap.insert depName dep deps)) []
  | tval => malformedSection tval

/-! ## The manifest -/

/-- `SourceManifest`. -/
structure SourceManifest where
  package : PackageInfo
  addresses : Option (List (List Char × Option Nat))
  devAddressAssignments : Option (List (List Char × Nat))
  build : Option BuildInfo
  dependencies : Dependencies
  devDependencies : Dependencies
  deriving DecidableEq, Repr

/-- `parse_source_manifest`: the sections in the order the source reads them, each error with
the context of its section. -/
def parseSourceManifest (moveHome : List Char) (customKey : Option (List Char)) :
    TomlValue → Except Failure SourceManifest
  | .table table => do
    context "Error parsing package manifest" (checkForRequiredFieldNames table ["package"])
    let addresses ← context "Error parsing '[addresses]' section of manifest"
      (parseSection parseAddresses (BTreeMap.get "addresses".toList table))
    let devAddressAssignments ← context "Error parsing '[dev-addresses]' section of manifest"
      (parseSection parseDevAddresses (BTreeMap.get "dev-addresses".toList table))
    let package ← context "Error parsing '[package]' section of manifest"
      (parseSection parsePackageInfo (BTreeMap.get "package".toList table))
    let some package := package | .error .panic
    let build ← context "Error parsing '[build]' section of manifest"
      (parseSection parseBuildInfo (BTreeMap.get "build".toList table))
    let dependencies ← context "Error parsing '[dependencies]' section of manifest"
      (parseSection (parseDependencies moveHome customKey)
        (BTreeMap.get "dependencies".toList table))
    let devDependencies ← context "Error parsing '[dev-dependencies]' section of manifest"
      (parseSection (parseDependencies moveHome customKey)
        (BTreeMap.get "dev-dependencies".toList table))
    .ok ⟨package, addresses, devAddressAssignments, build, dependencies.getD [],
      devDependencies.getD []⟩
  | tval =>
    bail ("Malformed package manifest " ++ String.ofList tval.render ++
      ". Expected a table at top level, but encountered a " ++ tval.typeStr)

/-- `parse_move_manifest_string`, given `toml::from_str`. -/
def parseMoveManifestString (fromStr : List Char → Except String TomlValue)
    (manifestString : List Char) : Except Failure TomlValue :=
  match fromStr manifestString with
  | .ok tval => .ok tval
  | .error message => .error (.error ["Unable to parse Move package manifest", message])

/-- `parse_move_manifest_from_file`, given the contents of the file. -/
def parseMoveManifestFromFile (fromStr : List Char → Except String TomlValue)
    (moveHome : List Char) (customKey : Option (List Char)) (fileContents : List Char) :
    Except Failure SourceManifest :=
  parseMoveManifestString fromStr fileContents >>= parseSourceManifest moveHome customKey

end AptosCore.Package
