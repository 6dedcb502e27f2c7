import BullMQ.Text.Replace

/-!
# The loader of the Lua scripts

`ScriptLoader.resolveDependencies` reads a script and the files that it includes, and replaces each
include directive by the tokens of the files; `interpolate` then puts the text of each file in the
place of its token. Texts are lists of characters. The file system and the modules for paths,
patterns and hashes are in a `Host`.
-/

namespace BullMQ

/-- A text or a path. -/
abbrev Chars := List Char

/-- What the loader uses of the modules `path`, `fs`, `crypto`, `minimatch` and `fast-glob`. -/
structure Host where
  rootPath : Chars
  pathMapper : Chars → Option Chars
  join : Chars → Chars → Chars
  normalize : Chars → Chars
  /-- `path.resolve` of a file in a directory. -/
  resolve : Chars → Chars → Chars
  /-- `path.resolve` of what a pattern has matched. -/
  resolveMatched : Chars → Chars
  dirname : Chars → Chars
  extname : Chars → Chars
  hasMagic : Chars → Bool
  glob : Chars → List Chars
  sha1 : Chars → Chars
  /-- The content of a file, if it exists. -/
  readFile : Chars → Option Chars

/-- What `resolveDependencies` keeps of a file. -/
structure ScriptMetadata where
  dir : Chars
  path : Chars
  content : Chars
  token : Chars
  includes : List ScriptMetadata

/-- `ScriptLoaderError`, which does not keep the path that it is given. -/
structure ScriptLoaderError where
  message : Chars
  includes : List Chars
  line : ℕ := 0
  position : ℕ := 0
  deriving DecidableEq

/-! ### The replacement functions of strings -/

/-- What a replacement stands for, where `matched` has been found between two texts: a dollar sign
followed by another one, by an ampersand, by a backtick or by an apostrophe is special. -/
def getSubstitution (matched before after : Chars) : Chars → Chars
  | '$' :: c :: s =>
    if c = '$' then '$' :: getSubstitution matched before after s
    else if c = '&' then matched ++ getSubstitution matched before after s
    else if c = Char.ofNat 96 then before ++ getSubstitution matched before after s
    else if c = Char.ofNat 39 then after ++ getSubstitution matched before after s
    else '$' :: getSubstitution matched before after (c :: s)
  | c :: s => c :: getSubstitution matched before after s
  | [] => []

/-- `str.replace(find, replacement)` for a string `find`. -/
def replace (str find replacement : Chars) : Chars :=
  match Text.splitFirst find str with
  | none => str
  | some (before, after) => before ++ getSubstitution find before after replacement ++ after

/-- `replaceAll`. Its pattern is a token, which has no special character, and what it puts in is
always empty. -/
def replaceAll (str find replacement : Chars) : Chars := Text.replaceAll find replacement 0 str

def getPathHash (host : Host) (normalizedPath : Chars) : Chars :=
  '@' :: '@' :: host.sha1 normalizedPath

/-! ### `IncludeRegex` -/

/-- The characters that end a line. -/
def isLineTerminator (c : Char) : Bool :=
  c = '\n' || c = '\r' || c = Char.ofNat 0x2028 || c = Char.ofNat 0x2029

def isBlank (c : Char) : Bool := c = ' ' || c = '\t'

def isQuote (c : Char) : Bool := c = Char.ofNat 34 || c = Char.ofNat 39

/-- The characters that may follow the closing quote. -/
def isTrailing (c : Char) : Bool := c = ';' || isBlank c || c = '\n'

/-- An include directive in a text. -/
structure IncludeMatch where
  before : Chars := []
  /-- The text of the directive. -/
  text : Chars
  reference : Chars
  rest : Chars

def stripPrefix (word s : Chars) : Option Chars :=
  if word <+: s then some (s.drop word.length) else none

/-- Three dashes, or two. -/
def stripDashes (s : Chars) : Option Chars :=
  (stripPrefix "---".toList s).or (stripPrefix "--".toList s)

def stripQuote : Chars → Option (Char × Chars)
  | quote :: s => if isQuote quote then some (quote, s) else none
  | [] => none

/-- The part of the expression up to the opening quote: the quote and what follows it. -/
def stripHeader (s : Chars) : Option (Char × Chars) := do
  let s ← stripDashes s
  let s ← stripPrefix "@include".toList (s.dropWhile isBlank)
  guard ((s.takeWhile isBlank).length ≠ 0)
  stripQuote (s.dropWhile isBlank)

/-- The last part of the expression: as many of these characters as leave the end of a line. The
result is what follows. -/
def stripTrailing : Chars → Option Chars
  | [] => some []
  | c :: s =>
    match if isTrailing c then stripTrailing s else none with
    | some rest => some rest
    | none => if isLineTerminator c then some (c :: s) else none

/-- The part of the expression after the opening quote: the shortest reference, and what follows. -/
def stripReference (quote : Char) : Chars → Option (Chars × Chars)
  | c :: d :: s =>
    if isLineTerminator c then none
    else
      match if d = quote then stripTrailing s else none with
      | some rest => some ([c], rest)
      | none => (stripReference quote (d :: s)).map fun found => (c :: found.1, found.2)
  | _ => none

/-- A directive at the start of a line. -/
def matchInclude (s : Chars) : Option IncludeMatch := do
  let (quote, inner) ← stripHeader s
  let (reference, rest) ← stripReference quote inner
  return { text := s.take (s.length - rest.length), reference, rest }

/-- `IncludeRegex.exec`, for a text that is at the start of a line or not. -/
def execInclude : Bool → Chars → Option IncludeMatch
  | _, [] => none
  | atStart, c :: s =>
    match if atStart then matchInclude (c :: s) else none with
    | some found => some found
    | none => (execInclude (isLineTerminator c) s).map fun found =>
        { found with before := c :: found.before }

/-! ### Include paths -/

def isPossiblyMappedPath : Chars → Bool
  | c :: _ => c = '~' || c = '<'
  | [] => false

def ensureExt (host : Host) (filename : Chars) : Chars :=
  let foundExt := host.extname filename
  if foundExt ≠ [] ∧ foundExt ≠ ['.'] then filename else filename ++ ".lua".toList

/-- A text in double quotes. -/
def quoted (s : Chars) : Chars := Char.ofNat 34 :: s ++ [Char.ofNat 34]

def resolvePath (host : Host) (scriptName : Chars) (stack : List Chars) :
    Except ScriptLoaderError Chars :=
  match scriptName with
  | '~' :: _ => .ok (host.normalize (host.join host.rootPath (scriptName.drop 2)))
  | '<' :: inner =>
    match Text.splitFirst ['>'] inner with
    | none => .ok (host.normalize scriptName)
    | some (name, file) =>
      match (host.pathMapper name).filter (· ≠ []) with
      | none => .error
          { message := "No path mapping found for ".toList ++ quoted name
            includes := stack }
      | some mappedPath => .ok (host.normalize (host.join mappedPath file))
  | _ => .ok (host.normalize scriptName)

/-- The paths that a reference in a file of a directory stands for. -/
def includePaths (host : Host) (stack : List Chars) (dir reference : Chars) :
    Except ScriptLoaderError (List Chars) := do
  let includeFilename ←
    if isPossiblyMappedPath reference then resolvePath host (ensureExt host reference) stack
    else pure (host.resolve dir (ensureExt host reference))
  let paths :=
    if host.hasMagic includeFilename then (host.glob includeFilename).map host.resolveMatched
    else [includeFilename]
  return paths.filter fun path => host.extname path = ".lua".toList

/-! ### `resolveDependencies` -/

/-- `findPos`: the line and the column of a directive. -/
def findPos (content found : Chars) : ℕ × ℕ :=
  let slice :=
    match Text.splitFirst found content with
    | some (before, _) => before
    | none => content.dropLast
  let column :=
    match Text.splitFirst "@include".toList found with
    | some (before, _) => before.length
    | none => 0
  ((slice.splitOn '\n').length, (slice.reverse.takeWhile (· ≠ '\n')).length + column + 1)

/-- `raiseError`. -/
def raiseError (message : Chars) (file : ScriptMetadata) (stack : List Chars) (found : Chars) :
    ScriptLoaderError :=
  { message, includes := stack
    line := (findPos file.content found).1
    position := (findPos file.content found).2 }

def circularReference (path : Chars) (stack : List Chars) : ScriptLoaderError :=
  { message := "circular reference: ".toList ++ quoted path, includes := stack }

def includeNotFound (reference : Chars) : Chars := "include not found: ".toList ++ quoted reference

def alreadyIncluded (reference path : Chars) : Chars :=
  "file ".toList ++ quoted reference ++ " already included in ".toList ++ quoted path

abbrev ScriptCache := Chars → Option ScriptMetadata

/-- The result of the loader, or an error, or nothing where the fuel has run out. -/
abbrev Load := ExceptT ScriptLoaderError Option

/-- The metadata of an included file, from the cache or from the disk. -/
def readInclude (host : Host) (file : ScriptMetadata) (found : IncludeMatch) (includePath : Chars)
    (cache : ScriptCache) (stack : List Chars) : Load (ScriptMetadata × ScriptCache) :=
  match cache includePath with
  | some includeMetadata => return (includeMetadata, cache)
  | none =>
    match host.readFile includePath with
    | none => throw (raiseError (includeNotFound found.reference) file stack found.text)
    | some childContent =>
      let includeMetadata : ScriptMetadata :=
        { dir := host.dirname includePath
          path := includePath
          content := childContent
          token := getPathHash host includePath
          includes := [] }
      return (includeMetadata, Function.update cache includePath (some includeMetadata))

mutual

/-- `resolveDependencies`. A top-level script is also put into the cache, under its name, which is
not the path of an include; that is left out. -/
def resolveDependencies (host : Host) : ℕ → ScriptMetadata → ScriptCache → Bool → List Chars →
    Load (ScriptMetadata × ScriptCache)
  | 0, _, _, _, _ => ExceptT.mk none
  | fuel + 1, file, cache, isInclude, stack =>
    if file.path ∈ stack then throw (circularReference file.path stack)
    else do
      let (file, cache) ←
        resolveIncludes host fuel file file.content cache (stack ++ [file.path])
      return (file, if isInclude then Function.update cache file.path (some file) else cache)

/-- The loop of `resolveDependencies` over the directives. -/
def resolveIncludes (host : Host) : ℕ → ScriptMetadata → Chars → ScriptCache → List Chars →
    Load (ScriptMetadata × ScriptCache)
  | 0, _, _, _, _ => ExceptT.mk none
  | fuel + 1, file, content, cache, stack =>
    match execInclude true content with
    | none => return ({ file with content }, cache)
    | some found => do
      let paths ← (includePaths host stack file.dir found.reference : Except _ _)
      if paths = [] then
        throw (raiseError (includeNotFound found.reference) file stack found.text)
      else do
        let (file, tokens, cache) ← addIncludes host fuel file found paths cache stack
        let substitution := ['\n'].intercalate tokens
        resolveIncludes host fuel file (replace content found.text substitution) cache stack

/-- The loop over the files of one directive. The tokens are those of the files. -/
def addIncludes (host : Host) : ℕ → ScriptMetadata → IncludeMatch → List Chars → ScriptCache →
    List Chars → Load (ScriptMetadata × List Chars × ScriptCache)
  | 0, _, _, _, _, _ => ExceptT.mk none
  | _ + 1, file, _, [], cache, _ => return (file, [], cache)
  | fuel + 1, file, found, includePath :: paths, cache, stack =>
    if includePath ∈ file.includes.map (·.path) then
      throw (raiseError (alreadyIncluded found.reference file.path) file stack found.text)
    else do
      let (includeMetadata, cache) ← readInclude host file found includePath cache stack
      let (child, cache) ← resolveDependencies host fuel includeMetadata cache true stack
      let (file, tokens, cache) ←
        addIncludes host fuel { file with includes := file.includes ++ [child] } found paths cache
          stack
      return (file, includeMetadata.token :: tokens, cache)

end

/-- `parseScript`, for a top-level script that is not in the cache. -/
def parseScript (host : Host) (fuel : ℕ) (dir name content : Chars) (cache : ScriptCache) :
    Load (ScriptMetadata × ScriptCache) :=
  resolveDependencies host fuel
    { dir, path := name, content, token := getPathHash host name, includes := [] } cache false []

/-! ### `interpolate` -/

mutual

/-- `interpolate`: the text of a file, and which files have been processed. -/
def interpolate : ScriptMetadata → List Chars → Chars × List Chars
  | ⟨_, _, content, _, includes⟩, processed => interpolateIncludes includes content processed

/-- The loop of `interpolate` over the files that are included. -/
def interpolateIncludes : List ScriptMetadata → Chars → List Chars → Chars × List Chars
  | [], content, processed => (content, processed)
  | child :: includes, content, processed =>
    let emitted := child.path ∈ processed
    let (fragment, processed) := interpolate child processed
    let replacement := if emitted then [] else fragment
    let content :=
      if replacement = [] then replaceAll content child.token []
      else replaceAll (replace content child.token replacement) child.token []
    interpolateIncludes includes content (child.path :: processed)

end

/-- The part of `loadCommand` that parses a script and interpolates it. -/
def assembleScript (host : Host) (fuel : ℕ) (dir name content : Chars) (cache : ScriptCache) :
    Load (Chars × ScriptCache) := do
  let (script, cache) ← parseScript host fuel dir name content cache
  return ((interpolate script []).1, cache)

end BullMQ
