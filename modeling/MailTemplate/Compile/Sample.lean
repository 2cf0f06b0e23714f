import MailTemplate.Files.FileSystem

/-! A small source tree to start from: two layouts, two parts, two messages and a stylesheet. -/

namespace MailTemplate
namespace Sample

/-- Lines with a line feed between neighbours; `⟦` and `⟧` stand for braces. -/
def lines (texts : List String) : Text :=
  Text.joinWith ['\n'] (texts.map fun line => line.toList.map fun c =>
    if c = '⟦' then '{' else if c = '⟧' then '}' else c)

/-- The outermost layout: a head with a style element, and three blocks. -/
def baseLayout : Text :=
  lines [
    "<!DOCTYPE html>",
    "<html>",
    "<head>",
    "    <meta charset=\"utf-8\">",
    "    <title>⟦% block subject %⟧⟦% endblock %⟧</title>",
    "    <style>",
    "        .muted ⟦ color: #6b7280; font-size: 12px; ⟧",
    "        @media (max-width: 600px) ⟦ .muted ⟦ font-size: 10px; ⟧ ⟧",
    "    </style>",
    "</head>",
    "<body>",
    "    ⟦% include \"partials/_header.njk\" %⟧",
    "    ⟦% block body %⟧⟦% endblock %⟧",
    "    ⟦% block footer %⟧<p class=\"muted\">Sent by ⟦⟦ site_name ⟧⟧</p>⟦% endblock %⟧",
    "</body>",
    "</html>",
    ""]

def brandLayout : Text :=
  lines [
    "⟦% extends \"layouts/base.njk\" %⟧",
    "⟦% block footer %⟧<p class=\"muted\">⟦⟦ site_name ⟧⟧ &middot; " ++
      "⟦% include \"partials/_address.njk\" %⟧</p>⟦% endblock %⟧",
    ""]

def header : Text :=
  lines [
    "<container class=\"header\"><row><columns padding=\"16px\">" ++
      "<h1>⟦⟦ site_name ⟧⟧</h1></columns></row></container>"]

def address : Text :=
  "1 Main St".toList

def welcome : Text :=
  lines [
    "⟦% extends \"layouts/brand.njk\" %⟧",
    "⟦% block subject %⟧Welcome, ⟦⟦ user.name ⟧⟧⟦% endblock %⟧",
    "⟦% block body %⟧",
    "<container class=\"content\">",
    "    <row background=\"#ffffff\">",
    "        <columns padding=\"24px\">",
    "            <p class=\"lead\">Hi ⟦⟦ user.name | title ⟧⟧,</p>",
    "            ⟦% for item in checklist %⟧<p>⟦⟦ loop.index ⟧⟧. ⟦⟦ item ⟧⟧</p>⟦% endfor %⟧",
    "            <button href=\"⟦⟦ confirm_url ⟧⟧\">Confirm your email</button>",
    "        </columns>",
    "    </row>",
    "</container>",
    "⟦% endblock %⟧",
    ""]

def reset : Text :=
  lines [
    "⟦% extends \"layouts/base.njk\" %⟧",
    "⟦% block subject %⟧Reset your password⟦% endblock %⟧",
    "⟦% block body %⟧<p>Use this code: <b>⟦⟦ code ⟧⟧</b></p>" ++
      "⟦% if expires %⟧<p class=\"muted\">Expires ⟦⟦ expires ⟧⟧</p>⟦% endif %⟧⟦% endblock %⟧",
    ""]

def stylesheet : Text :=
  lines [
    "/* shared email styles */",
    "p ⟦ margin: 0 0 12px; ⟧",
    ".lead ⟦ font-size: 18px; ⟧",
    "a:hover ⟦ text-decoration: underline; ⟧",
    "@font-face ⟦ font-family: Brand; src: url(brand.woff); ⟧",
    ""]

def stylesheetPath : Text := "email.css".toList

def tree : List (Text × Text) :=
  [("layouts/base.njk".toList, baseLayout), ("layouts/brand.njk".toList, brandLayout),
    ("partials/_header.njk".toList, header), ("partials/_address.njk".toList, address),
    ("emails/welcome.njk".toList, welcome), ("emails/reset.njk".toList, reset),
    (stylesheetPath, stylesheet)]

def writeAll (root : Text) : FileSystem → List (Text × Text) →
    FileSystem × Except FileError Unit
  | files, [] => (files, .ok ())
  | files, (path, text) :: rest => match files.writeDeep (Path.join root path) (.text text) with
    | (files, .ok ()) => writeAll root files rest
    | (files, .error e) => (files, .error e)

def write (files : FileSystem) (root : Text) : FileSystem × Except FileError Unit :=
  writeAll root files tree

end Sample
end MailTemplate
