import ShaderCost.Report.Summary

/-! # The report for browsers

A page with a table for each file, in which the background of a line shows its heat.
-/

namespace ShaderCost

namespace HtmlReport

/-- A byte of text in a page; all that could be taken for markup is escaped. -/
def escapeByte (b : UInt8) : Bytes :=
  if b == Byte.ofChar '&' then "&amp;"
  else if b == Byte.ofChar '<' then "&lt;"
  else if b == Byte.ofChar '>' then "&gt;"
  else if b == Byte.ofChar '"' then "&#34;"
  else if b == Byte.ofChar '\'' then "&#39;"
  else if b == Byte.plus then "&#43;"
  else if b == 0 then "�"
  else [b]

def escape (text : Bytes) : Bytes := text.flatMap escapeByte

/-- The page up to the first file. -/
def opening : String := "<!DOCTYPE html>
<html>
<head>
<meta charset=\"utf-8\">
<title>shadertune report</title>
<style>
body \x7b font-family: sans-serif; \x7d
table \x7b border-collapse: collapse; font-family: monospace; \x7d
td \x7b padding: 0 8px; white-space: pre; \x7d
td.line, td.cost \x7b text-align: right; color: #555; \x7d
.error \x7b color: #b00; white-space: pre; \x7d
</style>
</head>
<body>
"

/-- The page after the last file. -/
def closing : String := "</body>
</html>
"

def row (file : FileSummary) (line : Bytes × Nat) : Bytes :=
  let (text, index) := line
  let number := index + 1
  let cost := file.lines.getD number 0
  Bytes.ofString ("<tr style=\"background-color: " ++ heatColor cost file.largest ++
      "\"><td class=\"line\">" ++ toString number ++ "</td><td class=\"source\">") ++
    escape text ++
    Bytes.ofString ("</td><td class=\"cost\">" ++ toString cost.toInt ++ "</td></tr>\n")

def fileReport : FileResult → Bytes
  | .failed file error =>
    heading file ++ Bytes.ofString "<p class=\"error\">" ++ escape error ++
      Bytes.ofString "</p>\n"
  | .analysed file =>
    heading file.file ++
      Bytes.ofString ("<p>Total cost: " ++ toString file.total.toInt ++ "</p>\n<table>\n") ++
      file.source.zipIdx.flatMap (row file) ++ Bytes.ofString "</table>\n"
where
  heading (name : String) : Bytes :=
    Bytes.ofString "<h2>" ++ escape name ++ Bytes.ofString "</h2>\n"

def report (batch : Batch) : Bytes :=
  Bytes.ofString opening ++ batch.results.flatMap fileReport ++ Bytes.ofString closing

end HtmlReport

end ShaderCost
