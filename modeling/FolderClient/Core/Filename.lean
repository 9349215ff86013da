import FolderClient.Core.Namespace
import FolderClient.Library.Texts

namespace FolderClient.Core.Filename

open FolderClient.Core.Namespace FolderClient.Library.Texts

/-- The upper bound for the title part of a name, in bytes of UTF-8. -/
def maxTitleBytes : ℕ := 180

/-- The name used when nothing of the title is left. -/
def unnamed : String := "Unbenannt"

def reserved : List String :=
  ["CON", "PRN", "AUX", "NUL", "COM1", "COM2", "COM3", "COM4", "COM5", "COM6", "COM7", "COM8",
    "COM9", "LPT1", "LPT2", "LPT3", "LPT4", "LPT5", "LPT6", "LPT7", "LPT8", "LPT9"]

/-- A name that is not yet sanitised, with what the resolution of collisions needs. -/
structure RawName where
  title : String
  «extension» : Option String
  shortForm : String

/-- The extension for a media type. -/
def extensionFor (mediaType : String) : String :=
  let base := String.ofList (asciiLower (trim (mediaType.toList.takeWhile (· ≠ ';'))))
  if base = "application/pdf" then "pdf"
  else if base = "image/png" then "png"
  else if base = "image/jpeg" then "jpg"
  else if base = "image/gif" then "gif"
  else if base = "image/webp" then "webp"
  else if base = "image/tiff" then "tif"
  else if base = "text/plain" then "txt"
  else if base = "application/xml" ∨ base = "text/xml" then "xml"
  else "bin"

namespace RawName

/-- For a folder: no extension. -/
def folder (title shortForm : String) : RawName := ⟨title, none, shortForm⟩

/-- For a file: the extension follows the media type, never the title. -/
def file (title mediaType shortForm : String) : RawName :=
  ⟨title, some (extensionFor mediaType), shortForm⟩

end RawName

/-- What stands in for a character that no file system takes. -/
def fallback (c : Char) : Option Char :=
  if c ∈ ['/', '\\', ':', '|'] then some '-'
  else if c ∈ ['<', '>', '"', '?', '*'] then some '_'
  else if isControl c then some ' '
  else none

/-- Replaces what is forbidden and lets every stretch of whitespace become one space; none stands
at the beginning. -/
def replaceFrom (spaceBefore started : Bool) : List Char → List Char
  | [] => []
  | c :: rest =>
    let c := (fallback c).getD c
    if isWhitespace c then
      if !spaceBefore && started then ' ' :: replaceFrom true true rest
      else replaceFrom true started rest
    else c :: replaceFrom false true rest

/-- The part of a name before its first dot. -/
def stem (name : List Char) : List Char := name.takeWhile (· ≠ '.')

/-- The title as far as it is kept: without dots and spaces at its edges, and cut to length. -/
def shorten (text : List Char) : List Char :=
  (takeBytes maxTitleBytes (trim (text.dropWhile (· = '.')))).rdropWhile
    fun c ↦ c = '.' || c = ' '

/-- A name for what is left over, and an underscore after the name of a device. -/
def settle (text : List Char) : List Char :=
  let text := if text.isEmpty then unnamed.toList else text
  let device := trim (asciiUpper (stem text))
  if String.ofList device ∈ reserved then
    text.take device.length ++ '_' :: text.drop device.length
  else text

/-- Makes a name of a title that both file systems take; it is never empty. -/
def sanitize (unicode : Unicode) (title : String) : String :=
  String.ofList (settle (shorten (replaceFrom false false (unicode.nfc title).toList)))

def assemble (title : String) (shortForm «extension» : Option String) : String :=
  let name := match shortForm with
    | some k => title ++ " (" ++ k ++ ")"
    | none => title
  match «extension» with
  | some e => name ++ "." ++ e
  | none => name

section Siblings

variable (unicode : Unicode)

/-- The name an item has when nobody else bears it. -/
def plain (r : RawName) : String := assemble (sanitize unicode r.title) none r.extension

/-- The name that carries the short form. -/
def distinguished (r : RawName) : String :=
  assemble (sanitize unicode r.title) (some r.shortForm) r.extension

/-- How often a name is borne among the siblings and the names taken. -/
def count (raw : List RawName) (taken : List String) (name : String) : ℕ :=
  ((raw.map (plain unicode) ++ taken).map (comparisonForm unicode)).count
    (comparisonForm unicode name)

/-- The names of siblings in their order: where names collide, all parties get their short form. -/
def name (raw : List RawName) (taken : List String) : List String :=
  raw.map fun r ↦
    if 1 < count unicode raw taken (plain unicode r) then distinguished unicode r
    else plain unicode r

end Siblings

example : sanitize ⟨id, id⟩ "  .versteckt  " = "versteckt" := by decide +kernel

example : sanitize ⟨id, id⟩ "com1.bericht" = "com1_.bericht" := by decide +kernel

end FolderClient.Core.Filename
