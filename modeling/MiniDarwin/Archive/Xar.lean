import MiniDarwin.Archive.Inflate
import MiniDarwin.Archive.Cpio

/-!
XAR, the container of a flat package (`xar.c`), and what it uses of `xml.c`.

libxml2 is a parameter: `xmlReadMemory` returns the tree of a document.
-/

namespace MiniDarwin.Archive

open Posix (Bytes)

/-! ### XML -/

/-- `xmlNode` -/
inductive Node where
  | element (name : Bytes) (properties : List (Bytes × Bytes)) (children : List Node)
  /-- a text node or a CDATA section -/
  | text (content : Bytes)
  /-- a comment or a processing instruction -/
  | other

/-- `xmlDoc` -/
structure Doc where
  root : Option Node
  /-- is there a DTD, internal or external -/
  subset : Bool

def xmlParse (xmlReadMemory : Bytes → Option Doc) (b : Bytes) : Result Node := do
  dieIf (b = [] ∨ b.length > limitXml ∨ 0 ∈ b) "invalid XML document"
  match xmlReadMemory b with
  | some ⟨some root, false⟩ => return root
  | _ => die "invalid XML, or XML with a DTD"

def Node.isElement : Node → Bool
  | .element _ _ _ => true
  | _ => false

def Node.children : Node → List Node
  | .element _ _ children => children
  | _ => []

def xmlIs (name : Bytes) : Node → Bool
  | .element n _ _ => n = name
  | _ => false

def xmlRoot (root : Node) (expectedName : Bytes) : Result Node := do
  dieIf (¬ xmlIs expectedName root) s!"expected XML root <{text expectedName}>"
  return root

/-- The elements among the children, in the order in which `xml_elements ()` and
`xml_next_element ()` return them. -/
def xmlElements (parent : Option Node) : List Node :=
  (parent.elim [] Node.children).filter Node.isElement

def xmlChild (parent : Option Node) (name : Bytes) : Option Node :=
  (xmlElements parent).find? (xmlIs name)

mutual

/-- `xmlNodeGetContent ()` -/
def Node.content : Node → Bytes
  | .element _ _ children => contents children
  | .text content => content
  | .other => []

/-- The texts of siblings, one after the other. -/
def contents : List Node → Bytes
  | [] => []
  | n :: siblings => n.content ++ contents siblings

end

def xmlText (n : Option Node) : Result Bytes :=
  match n with
  | some n => .ok n.content
  | none => die "missing XML value"

/-- `xmlGetProp ()` -/
def Node.property (key : Bytes) : Node → Option Bytes
  | .element _ properties _ => properties.lookup key
  | _ => none

/-- `xml_attr ()` without a fallback. -/
def xmlAttr (n : Option Node) (key : Bytes) : Result Bytes :=
  match n.bind (Node.property key) with
  | some value => .ok value
  | none => die s!"missing XML attribute {text key}"

def xmlChildUint (parent : Option Node) (name : Bytes) : Result Nat := do
  parseUint (← xmlText (xmlChild parent name)) 10

/-! ### Members -/

/-- What the installer uses of other libraries. -/
structure Libs where
  zlib : Zlib
  evp : Algorithm → Bytes → Option Bytes
  xmlReadMemory : Bytes → Option Doc

structure XarMember where
  name : Bytes
  data : Bytes
  deriving DecidableEq

/-- `*p << 8 | ...` -/
def bigEndian (b : Bytes) : Nat := b.foldl (fun v c => v * 256 + c.toNat) 0

def verifyChecksum (libs : Libs) (checksum : Option Node) (data : Bytes) : Result Unit := do
  dieIf (checksum.isNone) "missing XAR checksum"
  let style ← xmlAttr checksum (lit "style")
  let want ← xmlText checksum
  let hash ← digest libs.evp data style
  dieIf (¬ sameCaseless want (hexEncode hash)) "XAR checksum mismatch"

/-- The bytes of a member, from what is stored of it. -/
def decodeMember (libs : Libs) (encoding encoded : Bytes) (size : Nat) : M Bytes := do
  if encoding = lit "application/x-gzip" then
    inflateLimited libs.zlib encoded 15 size limitMember
  else if encoding = lit "application/octet-stream" then do
    dieIf (encoded.length ≠ size) "XAR member size mismatch"
    decodedAccount encoded.length
    return encoded
  else dieM s!"unsupported XAR encoding: {text encoding}"

def readMember (libs : Libs) (data : Node) (heap : Bytes) : M Bytes := do
  let offset ← xmlChildUint data (lit "offset")
  let length ← xmlChildUint data (lit "length")
  let size ← xmlChildUint data (lit "size")
  dieIf (offset > heap.length) "XAR member out of bounds"
  let room ← minus heap.length offset
  dieIf (length > room ∨ size > limitMember) "XAR member out of bounds"
  let encoded ← slice heap offset length
  verifyChecksum libs (xmlChild data (lit "archived-checksum")) encoded
  let encoding ← xmlAttr (xmlChild data (lit "encoding")) (lit "style")
  let out ← decodeMember libs encoding encoded size
  verifyChecksum libs (xmlChild data (lit "extracted-checksum")) out
  return out

/-- The path of a `file` element. -/
def memberPath (above : Bytes) (n : Node) : Result Bytes := do
  let name ← xmlText (xmlChild n (lit "name"))
  dieIf (name = [] ∨ 47 ∈ name ∨ name = [46] ∨ name = [46, 46]) "unsafe XAR member name"
  let joined ← pathJoin above name
  pathNormalize joined false

/-- One element of the table of contents; `walk` is for directories. -/
def walkElement (libs : Libs) (heap above : Bytes)
    (walk : Node → Bytes → List XarMember → M (List XarMember)) (members : List XarMember) (n : Node) :
    M (List XarMember) := do
  if ¬ xmlIs (lit "file") n then return members
  else do
    let path ← memberPath above n
    let type ← xmlText (xmlChild n (lit "type"))
    match xmlChild n (lit "data") with
    | none =>
        if type = lit "directory" then walk n path members
        else dieM s!"unsupported XAR member: {text path} ({text type})"
    | some data =>
        if type = lit "file" then do
          dieIf (members.length ≥ limitEntries) "XAR member limit"
          return members ++ [⟨path, ← readMember libs data heap⟩]
        else dieM s!"unsupported XAR member: {text path} ({text type})"

/-- `room` is how much deeper a directory may be: it runs out when `depth` exceeds
`LIMIT_DEPTH`. -/
def walkToc (libs : Libs) (heap : Bytes) :
    (room : Nat) → (parent : Node) → (above : Bytes) → List XarMember → M (List XarMember)
  | 0, _, _, _ => dieM "XAR nesting limit"
  | room + 1, parent, above, members =>
      (xmlElements parent).foldlM (walkElement libs heap above (walkToc libs heap room)) members

/-! ### Packages -/

/-- The algorithm that the header names: 1 and 2 are fixed; 3 names it in the header when
that is long enough to hold a name, and otherwise leaves it to the table of contents. -/
def expectedStyle (file : Bytes) (header algorithm : Nat) (style : Bytes) : Result Bytes := do
  if algorithm = 1 then return lit "sha1"
  else if algorithm = 2 then return lit "md5"
  else if algorithm = 3 ∧ header ≥ 64 then return cstr (← slice file 28 36)
  else if algorithm = 3 then return style
  else die "unsupported or inconsistent XAR TOC checksum"

/-- Of two members that follow each other, the second with the name of the first. -/
def duplicate (members : List XarMember) : Option XarMember :=
  ((members.zip members.tail).find? fun x => x.1.name = x.2.name).map (·.2)

def sortMembers (members : List XarMember) : List XarMember :=
  members.insertionSort fun a b => compare a.name b.name ≠ .gt

/-- The compressed table of contents and the heap. -/
def tocAndHeap (file : Bytes) : Result (Bytes × Bytes) := do
  let header := bigEndian (← slice file 4 2)
  let tocPacked := bigEndian (← slice file 8 8)
  let tocSize := bigEndian (← slice file 16 8)
  dieIf (header < 28 ∨ header > file.length) "invalid XAR header"
  let rest ← minus file.length header
  dieIf (tocPacked > rest ∨ tocSize = 0 ∨ tocSize > limitXml) "invalid XAR header"
  let packed ← slice file header tocPacked
  let heapAt ← plus header tocPacked
  let heap ← slice file heapAt (← minus rest tocPacked)
  return (packed, heap)

/-- The checksum of the table of contents, which is in the heap. -/
def verifyToc (libs : Libs) (file packed heap : Bytes) (checksum : Node) : Result Unit := do
  let header := bigEndian (← slice file 4 2)
  let algorithm := bigEndian (← slice file 24 4)
  let style ← xmlAttr checksum (lit "style")
  let expected ← expectedStyle file header algorithm style
  dieIf (style ≠ expected) "unsupported or inconsistent XAR TOC checksum"
  let offset ← xmlChildUint checksum (lit "offset")
  let size ← xmlChildUint checksum (lit "size")
  let hash ← digest libs.evp packed style
  dieIf (offset > heap.length) "XAR TOC checksum mismatch"
  let room ← minus heap.length offset
  dieIf (size > room ∨ size ≠ hash.length) "XAR TOC checksum mismatch"
  let stored ← slice heap offset hash.length
  dieIf (hash ≠ stored) "XAR TOC checksum mismatch"

/-- `xar_open ()` of the contents of a file that `file_read ()` has read. -/
def xarOpen (libs : Libs) (path file : Bytes) : M (List XarMember) := do
  dieIf (file.length > limitDecoded) s!"file too large: {text path}"
  dieIf (file.length < 28) "not a flat package (XAR version 1)"
  let magic ← slice file 0 4
  let version := bigEndian (← slice file 6 2)
  dieIf (magic ≠ lit "xar!" ∨ version ≠ 1) "not a flat package (XAR version 1)"
  let (packed, heap) ← tocAndHeap file
  let tocSize := bigEndian (← slice file 16 8)
  let tocXml ← inflateLimited libs.zlib packed 15 tocSize limitXml
  let root ← xmlRoot (← xmlParse libs.xmlReadMemory tocXml) (lit "xar")
  match xmlChild root (lit "toc") with
  | none => dieM "XAR without a TOC checksum"
  | some toc =>
      match xmlChild toc (lit "checksum") with
      | none => dieM "XAR without a TOC checksum"
      | some checksum => do
          verifyToc libs file packed heap checksum
          let members ← walkToc libs heap (limitDepth + 1) toc [] []
          let sorted := sortMembers members
          match duplicate sorted with
          | some m => dieM s!"duplicate XAR member: {text m.name}"
          | none => return sorted

def xarMember (xar : List XarMember) (name : Bytes) (required : Bool) : Result (Option Bytes) :=
  match Data.bsearch (fun m => compare name m.name) xar with
  | some m => .ok (some m.data)
  | none => if required then die s!"missing package member: {text name}" else .ok none

end MiniDarwin.Archive
