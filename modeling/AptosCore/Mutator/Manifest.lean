import Mathlib
import AptosCore.Text.Replace
import AptosCore.Rust.Result
import AptosCore.Package.ManifestParser

/-!
# The manifest of a mutant's package

Before a mutant is compiled, `verify_mutant` copies its package to a temporary directory and
`rewrite_manifest_for_mutant` rewrites the copied `Move.toml` so that relative dependency paths
still resolve. The manifest text is parsed first, and a manifest that does not parse is not
rewritten: the parse's error is returned. Otherwise, for each dependency and then each
dev-dependency, in the order of the parsed maps, whose `local` path canonicalizes in the package
root, every occurrence of that path in the whole manifest text is replaced by the canonical
path, with `str::replace`.

A path that occurs in the manifest once is rewritten there and nowhere else
(`rewriteManifestForMutant_single`); a path that also occurs elsewhere, for instance inside the
package name, is rewritten there too, and the rewritten manifest names another package
(`rewriteManifestForMutant_rewrites_package_name`). Reading and writing the files and switching
the working directory are left out.
-/

namespace AptosCore.Mutator

open AptosCore.Text AptosCore.Package

/-- One turn of the `for_each`: a dependency whose path canonicalizes has the path replaced
everywhere. -/
def rewriteDependency (canonicalize : List Char → Option (List Char)) (manifestString : List Char)
    (dep : Dependency) : List Char :=
  match canonicalize dep.localPath with
  | some canonical => replaceAll manifestString dep.localPath canonical
  | none => manifestString

/-- `rewrite_manifest_for_mutant`: the manifest text written to the temporary directory, given
`toml::from_str`, `MOVE_HOME`, the custom dependency key and `canonicalize` run in the package
root. -/
def rewriteManifestForMutant (fromStr : List Char → Except String TomlValue)
    (moveHome : List Char) (customKey : Option (List Char))
    (canonicalize : List Char → Option (List Char)) (manifestString : List Char) :
    Except Failure (List Char) := do
  let manifest ← parseMoveManifestString fromStr manifestString
  let manifest ← parseSourceManifest moveHome customKey manifest
  .ok ((manifest.dependencies.map (·.2) ++ manifest.devDependencies.map (·.2)).foldl
    (rewriteDependency canonicalize) manifestString)

/-- The manifest of a package `oracle_client` with a dependency in its subdirectory `oracle`. -/
def oracleManifest : List Char :=
  ("[package]\nname = \"oracle_client\"\nversion = \"0.0.1\"\n\n" ++
    "[dependencies]\nOracle = \x7b local = \"oracle\" \x7d\n").toList

/-- The package root `/p` holds the directory `oracle`. -/
def oracleCanonicalize (path : List Char) : Option (List Char) :=
  if path = "oracle".toList then some "/p/oracle".toList else none

section Rewrite

variable {fromStr : List Char → Except String TomlValue} {moveHome : List Char}
  {customKey : Option (List Char)} {canonicalize : List Char → Option (List Char)}

theorem rewriteManifestForMutant_of_parse {manifestString : List Char} {manifest : SourceManifest}
    (hparse : parseMoveManifestFromFile fromStr moveHome customKey manifestString = .ok manifest) :
    rewriteManifestForMutant fromStr moveHome customKey canonicalize manifestString =
      .ok ((manifest.dependencies.map (·.2) ++ manifest.devDependencies.map (·.2)).foldl
        (rewriteDependency canonicalize) manifestString) := by
  unfold parseMoveManifestFromFile at hparse
  rw [Rust.bind_eq_ok_iff] at hparse
  obtain ⟨tval, htoml, hsource⟩ := hparse
  simp only [rewriteManifestForMutant, htoml, hsource, Rust.ok_bind]

/-- A manifest with one dependency, whose path occurs in the text only where the dependency
gives it, is rewritten at that place only. -/
theorem rewriteManifestForMutant_single {front back canonical : List Char} {dep : Dependency}
    {manifest : SourceManifest}
    (hparse : parseMoveManifestFromFile fromStr moveHome customKey
      (front ++ dep.localPath ++ back) = .ok manifest)
    (hdeps : manifest.dependencies.map (·.2) ++ manifest.devDependencies.map (·.2) = [dep])
    (hcanonical : canonicalize dep.localPath = some canonical) (hne : dep.localPath ≠ [])
    (honce : ∀ i < (front ++ dep.localPath ++ back).length,
      dep.localPath <+: (front ++ dep.localPath ++ back).drop i → i = front.length) :
    rewriteManifestForMutant fromStr moveHome customKey canonicalize
        (front ++ dep.localPath ++ back) =
      .ok (front ++ canonical ++ back) := by
  rw [rewriteManifestForMutant_of_parse hparse, hdeps, List.foldl_cons, List.foldl_nil,
    rewriteDependency, hcanonical]
  exact congrArg Except.ok (replaceAll_of_occurs_once front back hne honce)

/-- A package `client` whose one dependency `Oracle` is at `oracle`, which occurs nowhere else. -/
theorem rewriteManifestForMutant_single_client :
    let front := ("[package]\nname = \"client\"\nversion = \"0.0.1\"\n\n" ++
      "[dependencies]\nOracle = \x7b local = \"").toList
    let back := "\" \x7d\n".toList
    let dep : Dependency := ⟨"oracle".toList, none, none, none, none, none⟩
    let manifest : SourceManifest :=
      ⟨⟨"client".toList, (0, 0, 1), [], none, []⟩, none, none, none, [("Oracle".toList, dep)], []⟩
    parseMoveManifestFromFile Toml.fromStr "/home/.move".toList none
        (front ++ dep.localPath ++ back) = .ok manifest ∧
      manifest.dependencies.map (·.2) ++ manifest.devDependencies.map (·.2) = [dep] ∧
      oracleCanonicalize dep.localPath = some "/p/oracle".toList ∧ dep.localPath ≠ [] ∧
      (∀ i < (front ++ dep.localPath ++ back).length,
        dep.localPath <+: (front ++ dep.localPath ++ back).drop i → i = front.length) ∧
      rewriteManifestForMutant Toml.fromStr "/home/.move".toList none oracleCanonicalize
          (front ++ dep.localPath ++ back) =
        .ok (front ++ "/p/oracle".toList ++ back) := by
  intro front back dep manifest
  have hparse : parseMoveManifestFromFile Toml.fromStr "/home/.move".toList none
      (front ++ dep.localPath ++ back) = .ok manifest := by decide +kernel
  have honce : ∀ i < (front ++ dep.localPath ++ back).length,
      dep.localPath <+: (front ++ dep.localPath ++ back).drop i → i = front.length := by
    decide +kernel
  exact ⟨hparse, rfl, rfl, by decide, honce,
    rewriteManifestForMutant_single hparse rfl rfl (by decide) honce⟩

end Rewrite

/-- The package name and the dependency paths of a parsed manifest. -/
def packageAndPaths (manifest : SourceManifest) : List Char × List (List Char × List Char) :=
  (manifest.package.name, manifest.dependencies.map fun (name, dep) ↦ (name, dep.localPath))

/-- The rewrite of `oracleManifest` also rewrites the package name, which contains the
dependency's path: the manifest written for the mutant names the package `/p/oracle_client`. -/
theorem rewriteManifestForMutant_rewrites_package_name :
    rewriteManifestForMutant Toml.fromStr "/home/.move".toList none oracleCanonicalize
        oracleManifest =
      .ok ("[package]\nname = \"/p/oracle_client\"\nversion = \"0.0.1\"\n\n" ++
        "[dependencies]\nOracle = \x7b local = \"/p/oracle\" \x7d\n").toList ∧
    packageAndPaths <$> parseMoveManifestFromFile Toml.fromStr "/home/.move".toList none
        oracleManifest =
      .ok ("oracle_client".toList, [("Oracle".toList, "oracle".toList)]) ∧
    packageAndPaths <$> parseMoveManifestFromFile Toml.fromStr "/home/.move".toList none
        ("[package]\nname = \"/p/oracle_client\"\nversion = \"0.0.1\"\n\n" ++
          "[dependencies]\nOracle = \x7b local = \"/p/oracle\" \x7d\n").toList =
      .ok ("/p/oracle_client".toList, [("Oracle".toList, "/p/oracle".toList)]) := by
  decide +kernel

end AptosCore.Mutator
