import EnvelopeVault.Layout

/-!
# Statements

The statements for the table of secrets and for the organization keys. A
statement is text with numbered places; arguments are handed over beside it
and never become part of the text.
-/

namespace EnvelopeVault

/-- A part of a statement: fixed text, or the place of an argument, counted from 1. -/
inductive SqlPiece where
  | text (t : Text)
  | place (n : Nat)
deriving DecidableEq, Repr

namespace SqlPiece

def toText : SqlPiece → Text
  | .text t => t
  | .place n => "$" ++ Text.ofNat n

end SqlPiece

inductive Sql where
  | selectById
  | selectFiltered (requireData : Bool)
  | insert (columns : List Text)
  | update (columns : List Text) (checksVersion : Bool)
  | deleteById
  | selectKey
  | createTables
deriving DecidableEq, Repr

namespace Sql

def quoteColumn (name : Text) : Text := "\"" ++ name ++ "\""

def insertColumns : List Text :=
  ["userId", "orgId", "titleCiphertext", "titleIV", "titleTag", "typeCiphertext", "typeIV",
    "typeTag", "dataCiphertext", "dataIV", "dataTag", "commentCiphertext", "commentIV",
    "commentTag", "algorithm", "keyEncoding"]

def lines (ts : List String) : Text :=
  Text.intercalate "\n" (ts.map Text.ofString)

def tables : Text :=
  lines
    ["", "CREATE TABLE IF NOT EXISTS consumer_secrets (",
      "    id UUID PRIMARY KEY DEFAULT gen_random_uuid(),",
      "    \"userId\" UUID NOT NULL,",
      "    \"orgId\" UUID NOT NULL,",
      "    \"titleCiphertext\" TEXT NOT NULL,",
      "    \"titleIV\" TEXT NOT NULL,",
      "    \"titleTag\" TEXT NOT NULL,",
      "    \"typeCiphertext\" TEXT NOT NULL,",
      "    \"typeIV\" TEXT NOT NULL,",
      "    \"typeTag\" TEXT NOT NULL,",
      "    \"dataCiphertext\" TEXT NOT NULL,",
      "    \"dataIV\" TEXT NOT NULL,",
      "    \"dataTag\" TEXT NOT NULL,",
      "    \"commentCiphertext\" TEXT NOT NULL,",
      "    \"commentIV\" TEXT NOT NULL,",
      "    \"commentTag\" TEXT NOT NULL,",
      "    algorithm VARCHAR(255) NOT NULL DEFAULT 'aes-256-gcm',",
      "    \"keyEncoding\" VARCHAR(255) NOT NULL DEFAULT 'utf8',",
      "    version INTEGER NOT NULL DEFAULT 1,",
      "    \"createdAt\" TIMESTAMPTZ NOT NULL DEFAULT NOW(),",
      "    \"updatedAt\" TIMESTAMPTZ NOT NULL DEFAULT NOW()",
      ");",
      "CREATE INDEX IF NOT EXISTS consumer_secrets_org_user_idx",
      "    ON consumer_secrets (\"orgId\", \"userId\");", ""]

def commaSeparated (groups : List (List SqlPiece)) : List SqlPiece :=
  (groups.intersperse [.text ", "]).flatten

def insertPlaces (columns : List Text) : List Nat := List.range' 1 columns.length

/-- The columns that an update assigns, each with the place of its value. The first place
is the id's. -/
def assignments (columns : List Text) : List (Text × Nat) := columns.zipIdx 2

def versionPlace (columns : List Text) : Nat := columns.length + 2

def pieces : Sql → List SqlPiece
  | .selectById => [.text "\nSELECT * FROM consumer_secrets WHERE id = ", .place 1, .text "\n"]
  | .selectFiltered requireData =>
    [.text "\nSELECT * FROM consumer_secrets\nWHERE \"orgId\" = ", .place 1,
      .text " AND \"userId\" = ", .place 2,
      .text (if requireData then " AND \"dataCiphertext\" IS NOT NULL" else ""),
      .text "\nORDER BY \"createdAt\", id\n"]
  | .insert columns =>
    .text "\nINSERT INTO consumer_secrets (" ::
      .text (Text.intercalate ", " (columns.map quoteColumn)) ::
      .text ")\nVALUES (" ::
      (commaSeparated ((insertPlaces columns).map fun n => [.place n]) ++
        [.text ")\nRETURNING *\n"])
  | .update columns checksVersion =>
    .text "\nUPDATE consumer_secrets\nSET " ::
      (commaSeparated ((assignments columns).map fun (name, n) =>
          [.text (quoteColumn name ++ " = "), .place n]) ++
        .text ", version = version + 1, \"updatedAt\" = NOW()\nWHERE id = " :: .place 1 ::
        (if checksVersion then [.text " AND version = ", .place (versionPlace columns)] else []) ++
        [.text "\nRETURNING *\n"])
  | .deleteById =>
    [.text "\nDELETE FROM consumer_secrets WHERE id = ", .place 1, .text " RETURNING *\n"]
  | .selectKey =>
    [.text (lines
        ["",
          "SELECT \"orgId\", \"encryptedSymmetricKey\", \"symmetricKeyIV\", \"symmetricKeyTag\",",
          "       \"symmetricKeyAlgorithm\", \"symmetricKeyKeyEncoding\"",
          "FROM org_bots", "WHERE \"orgId\" = "]),
      .place 1, .text "\n"]
  | .createTables => [.text tables]

def text (s : Sql) : Text := s.pieces.flatMap SqlPiece.toText

end Sql

inductive QueryKind where
  | row
  | rows
  | effect
deriving DecidableEq, Repr

/-- A statement with its arguments, the first of them for place 1. -/
structure Query where
  kind : QueryKind
  sql : Sql
  args : List Value

namespace Query

def selectById (secret : Value) : Query := ⟨.row, .selectById, [secret]⟩

def selectFiltered (org user : Value) (requireData : Bool) : Query :=
  ⟨.rows, .selectFiltered requireData, [org, user]⟩

/-- Cells of other columns are left out. -/
def insert (row : Row) : Query :=
  let columns := Sql.insertColumns.filter row.has
  ⟨.row, .insert columns, columns.map fun name => (row.get? name).getD .null⟩

def update (secret : Value) (columns : Row) (expected : Option Value) : Except Failure Query :=
  let unknown := columns.names.filter fun name => !Layout.encryptedColumns.contains name
  if !unknown.isEmpty then .error (.columnsNotUpdatable unknown)
  else if columns.isEmpty then .error .noColumns
  else
    .ok ⟨.row, .update columns.names expected.isSome,
      secret :: (columns.map (·.2) ++ expected.toList)⟩

def deleteById (secret : Value) : Query := ⟨.row, .deleteById, [secret]⟩

def selectKey (org : Value) : Query := ⟨.row, .selectKey, [org]⟩

def createTables : Query := ⟨.effect, .createTables, []⟩

end Query
end EnvelopeVault
