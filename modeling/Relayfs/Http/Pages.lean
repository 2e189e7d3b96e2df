/-
  File:      Relayfs/Http/Pages.lean
  Subject:   THE PAGES of the login (bridge/src/http.rs, `login_page` and `authorize_submit`): their
             texts, and what is put into them. Nothing is escaped.
-/
import Mathlib.Init

namespace Relayfs

/-- A rule of a style sheet. -/
def cssRule (selector declarations : String) : String :=
  "    " ++ selector ++ " \x7b " ++ declarations ++ " \x7d"

/-- The page of a client that is authorized. -/
def authorizedPage (bearer : String) : String := "\n".intercalate
  ["<!DOCTYPE html>",
   "<html lang=\"en\">",
   "<head>",
   "  <meta charset=\"utf-8\">",
   "  <title>relayfs - Authorized</title>",
   "  <style>",
   cssRule "body" ("font-family: -apple-system, BlinkMacSystemFont, \"Segoe UI\", Roboto, "
     ++ "Helvetica, Arial, sans-serif; background: #0f1117; color: #e6edf3; display: flex; "
     ++ "align-items: center; justify-content: center; height: 100vh; margin: 0;"),
   cssRule ".card" ("background: #161b22; border: 1px solid #30363d; border-radius: 8px; "
     ++ "padding: 32px; width: 440px; box-shadow: 0 8px 24px rgba(0,0,0,0.5);"),
   cssRule "h2" "margin-top: 0; color: #58a6ff; font-size: 20px;",
   cssRule "p" "font-size: 14px; line-height: 1.5; color: #8b949e;",
   cssRule "code" ("background: #21262d; padding: 3px 6px; border-radius: 4px; color: "
     ++ "#79c0ff; font-family: ui-monospace, SFMono-Regular, monospace; word-break: break-all;"),
   cssRule ".btn" ("display: inline-block; background: #238636; color: #fff; padding: 10px "
     ++ "16px; border-radius: 6px; text-decoration: none; font-weight: 500; font-size: 14px; "
     ++ "margin-top: 16px;"),
   cssRule ".btn:hover" "background: #2ea043;",
   "  </style>",
   "</head>",
   "<body>",
   "  <div class=\"card\">",
   "    <h2>✓ Authenticated with RelayFS</h2>",
   "    <p>You are authenticated. Configure your AI client with:</p>",
   "    <p><strong>Endpoint:</strong> <code>/mcp</code></p>",
   "    <p><strong>Authorization Header:</strong> <code>Bearer " ++ bearer ++ "</code></p>",
   "  </div>",
   "</body>",
   "</html>"]

/-- The login form. -/
def loginForm (errorHtml redirectUri state responseType clientId : String) : String :=
  "\n".intercalate
  ["<!DOCTYPE html>",
   "<html lang=\"en\">",
   "<head>",
   "  <meta charset=\"utf-8\">",
   "  <meta name=\"viewport\" content=\"width=device-width, initial-scale=1\">",
   "  <title>relayfs - Remote MCP Login</title>",
   "  <style>",
   cssRule "*" "box-sizing: border-box;",
   cssRule "body" ("font-family: -apple-system, BlinkMacSystemFont, \"Segoe UI\", Roboto, "
     ++ "Helvetica, Arial, sans-serif; background: #0d1117; color: #c9d1d9; display: flex; "
     ++ "align-items: center; justify-content: center; min-height: 100vh; margin: 0; padding: "
     ++ "16px;"),
   cssRule ".card" ("background: #161b22; border: 1px solid #30363d; border-radius: 10px; "
     ++ "padding: 32px; width: 100%; max-width: 420px; box-shadow: 0 12px 28px "
     ++ "rgba(0,0,0,0.6);"),
   cssRule ".logo" "display: flex; align-items: center; gap: 10px; margin-bottom: 20px;",
   cssRule ".logo-badge" ("background: #1f6feb; color: #fff; font-weight: 700; padding: 4px "
     ++ "10px; border-radius: 6px; font-size: 13px;"),
   cssRule "h1" "font-size: 18px; margin: 0; color: #f0f6fc;",
   cssRule "p.desc" ("font-size: 13px; color: #8b949e; margin-top: 4px; margin-bottom: 20px; "
     ++ "line-height: 1.4;"),
   cssRule ".alert.error" ("background: rgba(248,81,73,0.15); border: 1px solid #f85149; "
     ++ "color: #ff7b72; padding: 10px 12px; border-radius: 6px; font-size: 13px; "
     ++ "margin-bottom: 16px;"),
   cssRule "label" ("display: block; font-size: 12px; font-weight: 600; color: #8b949e; "
     ++ "text-transform: uppercase; margin-bottom: 6px;"),
   cssRule "input[type=\"password\"], input[type=\"text\"]" ("width: 100%; padding: 10px "
     ++ "12px; background: #0d1117; border: 1px solid #30363d; border-radius: 6px; color: "
     ++ "#c9d1d9; font-size: 14px; outline: none; margin-bottom: 18px;"),
   cssRule "input[type=\"password\"]:focus" ("border-color: #58a6ff; box-shadow: 0 0 0 3px "
     ++ "rgba(88,166,255,0.2);"),
   cssRule "button" ("width: 100%; background: #238636; color: #ffffff; border: none; "
     ++ "padding: 10px 16px; font-size: 14px; font-weight: 600; border-radius: 6px; cursor: "
     ++ "pointer; transition: background 0.15s;"),
   cssRule "button:hover" "background: #2ea043;",
   "  </style>",
   "</head>",
   "<body>",
   "  <div class=\"card\">",
   "    <div class=\"logo\">",
   "      <span class=\"logo-badge\">relayfs</span>",
   "      <h1>Remote MCP Authentication</h1>",
   "    </div>",
   "    <p class=\"desc\">Enter your pairing token (<code>RELAYFS_TOKEN</code>) to authorize "
     ++ "remote MCP tool execution.</p>",
   "    " ++ errorHtml,
   "    <form method=\"POST\" action=\"/oauth/authorize\">",
   "      <input type=\"hidden\" name=\"redirect_uri\" value=\"" ++ redirectUri ++ "\">",
   "      <input type=\"hidden\" name=\"state\" value=\"" ++ state ++ "\">",
   "      <input type=\"hidden\" name=\"response_type\" value=\"" ++ responseType ++ "\">",
   "      <input type=\"hidden\" name=\"client_id\" value=\"" ++ clientId ++ "\">",
   "      <label for=\"token\">Pairing Token</label>",
   "      <input type=\"password\" id=\"token\" name=\"token\" placeholder=\"••••••••••••\" "
     ++ "autofocus required>",
   "      <button type=\"submit\">Log in & Authorize</button>",
   "    </form>",
   "  </div>",
   "</body>",
   "</html>"]

/-- The page after a login without a `redirect_uri`. -/
def loginSuccessful (token : String) : String := "\n".intercalate
  ["<!DOCTYPE html>",
   "<html lang=\"en\">",
   "<head>",
   "  <meta charset=\"utf-8\">",
   "  <title>relayfs - Login Successful</title>",
   "  <style>",
   cssRule "body" ("font-family: -apple-system, BlinkMacSystemFont, \"Segoe UI\", Roboto, "
     ++ "Helvetica, Arial, sans-serif; background: #0d1117; color: #c9d1d9; display: flex; "
     ++ "align-items: center; justify-content: center; height: 100vh; margin: 0;"),
   cssRule ".card" ("background: #161b22; border: 1px solid #30363d; border-radius: 10px; "
     ++ "padding: 32px; width: 480px; box-shadow: 0 12px 28px rgba(0,0,0,0.6);"),
   cssRule "h2" "color: #3fb950; margin-top: 0;",
   cssRule "code" ("background: #0d1117; padding: 4px 8px; border-radius: 4px; color: "
     ++ "#58a6ff; font-family: monospace; word-break: break-all;"),
   cssRule "p" "font-size: 14px; line-height: 1.5; color: #8b949e;",
   "  </style>",
   "</head>",
   "<body>",
   "  <div class=\"card\">",
   "    <h2>✓ Login Successful</h2>",
   "    <p>You have authorized this remote MCP server. You can now use the following "
     ++ "configuration in your client:</p>",
   "    <p><strong>URL:</strong> <code>http://&lt;this-host&gt;/mcp</code></p>",
   "    <p><strong>Bearer Token:</strong> <code>" ++ token ++ "</code></p>",
   "  </div>",
   "</body>",
   "</html>"]

end Relayfs
