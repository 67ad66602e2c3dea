import Sexp.Datum.Basic
import Sexp.Token

/-!
# The grammar

Which sequences of tokens are a datum, and which datum they are, said without a reader. Positions play no
part. A lone dot is an item of no list: where a list could have an item, it is always the mark of the tail.
-/

namespace Sexp.Grammar

mutual

/-- The tokens are one form, which denotes the datum. -/
inductive Form : List Token → Datum → Prop
  | string {token : Token} : token.kind = .string → Form [token] (.string token.text)
  | word {token : Token} : token.kind = .word → Form [token] (Datum.ofWord token.text)
  | quoted {token : Token} {name : String} {tokens : List Token} {datum : Datum} :
    token.kind.quoteName? = some name → Form tokens datum → Form (token :: tokens) (Datum.quoted name datum)
  | list {token : Token} {tokens : List Token} {datum : Datum} :
    token.kind = .openParen → Body tokens datum → Form (token :: tokens) datum

/-- The tokens are what follows an opening parenthesis or an item in a list, the closing parenthesis
included. -/
inductive Body : List Token → Datum → Prop
  | close {token : Token} : token.kind = .closeParen → Body [token] .nil
  | tail {dot close : Token} {tokens : List Token} {datum : Datum} :
    dot.isDot → Form tokens datum → close.kind = .closeParen → Body (dot :: (tokens ++ [close])) datum
  | item {first rest : List Token} {car cdr : Datum} :
    (∀ token, first = [token] → ¬token.isDot) → Form first car → Body rest cdr →
      Body (first ++ rest) (.cons car cdr)

end

/-- The tokens are forms one after the other, which denote the data. -/
inductive Forms : List Token → List Datum → Prop
  | nil : Forms [] []
  | cons {first rest : List Token} {datum : Datum} {data : List Datum} :
    Form first datum → Forms rest data → Forms (first ++ rest) (datum :: data)

/-- The tokens can be continued to forms. -/
def Viable (tokens : List Token) : Prop := ∃ more data, Forms (tokens ++ more) data

end Sexp.Grammar
