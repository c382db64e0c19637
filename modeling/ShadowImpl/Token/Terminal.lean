/-!
# Terminals

The classes of token that the grammar tells apart. A keyword or a symbol has one spelling; the other
classes are recognised by shape, see `Token.Recogniser`.
-/

namespace ShadowImpl

/-- The classes of token, and two answers for where no token stands: `eof` at the end of the text,
and `unknown` where nothing that is expected can be read. -/
inductive Terminal where
  | docComment | rawString | innerDoc | string | char | number | ident | lifetime
  | kwExtern | kwUnsafe | kwAsync | kwConst | kwWhere | kwImpl | kwType | kwDyn | kwFor | kwMut
  | kwPub | kwAs | kwFn
  | pathSep | arrow | punct | amp | bang | colon | comma | eq | hash | lbrace | lt | lpar | lsqb
  | minus | gt | plus | qmark | rbrace | rpar | rsqb | semi | star
  | eof | unknown
deriving DecidableEq, Repr

namespace Terminal

/-- The keywords. -/
def keywords : List Terminal :=
  [kwExtern, kwUnsafe, kwAsync, kwConst, kwWhere, kwImpl, kwType, kwDyn, kwFor, kwMut, kwPub, kwAs,
    kwFn]

/-- The symbols, a longer one before its own beginning. -/
def symbols : List Terminal :=
  [pathSep, arrow, amp, bang, colon, comma, eq, hash, lbrace, lt, lpar, lsqb, minus, gt, plus,
    qmark, rbrace, rpar, rsqb, semi, star]

/-- The text of a keyword or of a symbol. -/
def spelling : Terminal → List Char
  | kwExtern => "extern".toList
  | kwUnsafe => "unsafe".toList
  | kwAsync => "async".toList
  | kwConst => "const".toList
  | kwWhere => "where".toList
  | kwImpl => "impl".toList
  | kwType => "type".toList
  | kwDyn => "dyn".toList
  | kwFor => "for".toList
  | kwMut => "mut".toList
  | kwPub => "pub".toList
  | kwAs => "as".toList
  | kwFn => "fn".toList
  | pathSep => [':', ':']
  | arrow => ['-', '>']
  | amp => ['&']
  | bang => ['!']
  | colon => [':']
  | comma => [',']
  | eq => ['=']
  | hash => ['#']
  | lbrace => ['\x7b']
  | lt => ['<']
  | lpar => ['(']
  | lsqb => ['[']
  | minus => ['-']
  | gt => ['>']
  | plus => ['+']
  | qmark => ['?']
  | rbrace => ['\x7d']
  | rpar => [')']
  | rsqb => [']']
  | semi => [';']
  | star => ['*']
  | _ => []

/-- The keywords and the symbols are the terminals that have a spelling. -/
theorem spelling_ne_nil_iff {t : Terminal} : t.spelling ≠ [] ↔ t ∈ keywords ++ symbols := by
  cases t <;> decide

end Terminal

/-- The terminals that may come next. -/
abbrev Expectation := List Terminal

end ShadowImpl
